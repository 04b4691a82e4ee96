import OperatingSystems.Wfs.Runs

/-!
# Compaction of an image

`fsck.wfs` builds a new log in zeroed memory, from the last live entry of each inode number in ascending
order, and overwrites the disk with it.

* **`compact_spec`** — the new log tiles, is no longer than the old one, and holds the versions that
  `VersionLog.compacted` keeps.
* **`fsck_spec`** — so does the image afterwards, also on a disk that is too small for its root.
-/

namespace OperatingSystems.Wfs

open OperatingSystems.ByteMemory OperatingSystems.ByteMemory.Mem OperatingSystems.BoundedLoop
open OperatingSystems.VersionLog OperatingSystems.Namespace

variable {im : Image} {m m' new : Mem} {offs offs' : List ℕ} {e i : ℕ}

/-- The inode numbers `fsck.wfs` goes through. -/
def fsckNumbers (m : Mem) : List ℕ := List.range (find_max_inode_number m + 1)

theorem fsckNumbers_eq (m : Mem) : ∃ is, fsckNumbers m = 0 :: is := by
  rw [fsckNumbers, List.range_succ_eq_map]
  exact ⟨_, rfl⟩

theorem mem_fsckNumbers (h : Tiles m offs) : ∀ r ∈ log m, r.ino ∈ fsckNumbers m := by
  intro r hr
  rw [fsckNumbers, List.mem_range]
  exact Nat.lt_succ_of_le ((find_max_spec h).1 r hr)

/-! ### One round -/

/-- A found entry is on the log, belongs to the inode and is not deleted. -/
theorem found_live (h : Tiles m offs) (hfind : find_latest_log_entry m i = some e) :
    e ∈ offs ∧ inode_number m e = i ∧ deleted m e = 0 := by
  rw [find_latest_visits h.visits] at hfind
  obtain ⟨he, hl⟩ := List.mem_filter.mp (List.mem_of_getLast? hfind)
  rw [isLive, Bool.and_eq_true, beq_iff_eq, beq_iff_eq] at hl
  exact ⟨he, hl.1, hl.2⟩

theorem found_spec (h : WellFormed m offs) (hfind : find_latest_log_entry m i = some e) :
    e ∈ offs ∧ inode_number m e = i ∧ deleted m e = 0 ∧ latest (log m) i = some (version m e) := by
  obtain ⟨hmem, hino, hdel⟩ := found_live h.tiles hfind
  refine ⟨hmem, hino, hdel, ?_⟩
  rw [find_latest_eq h.tiles] at hfind
  obtain ⟨r, hr, rfl⟩ := Option.map_eq_some_iff.mp hfind
  rw [hr, ((mem_log h.tiles).mp (mem_of_latest hr).1).2]

theorem fsckCopy_eq (h : Tiles m offs) (hsb : sizeof_sb ≤ head new)
    (hfind : find_latest_log_entry m i = some e) : fsckCopy m new i =
      putHead (new.copyFrom m (head new) e (sizeof_log_entry + size m e))
        (head new + (sizeof_log_entry + size m e)) := by
  obtain ⟨-, -, hdel⟩ := found_live h hfind
  rw [sizeof_sb] at hsb
  have hhead : head (new.copyFrom m (head new) e (sizeof_log_entry + size m e)) = head new := by
    rw [head, u32_copyFrom_out _ _ _ (by omega)]
    rfl
  rw [fsckCopy, hfind]
  simp only [hdel, if_neg (show ¬(0 = 1) by decide)]
  rw [hhead, Nat.add_assoc]

/-- **A round that finds an entry** appends its version. -/
theorem fsckCopy_appends (h : WellFormed m offs) (hnew : WellFormed new offs')
    (hfind : find_latest_log_entry m i = some e)
    (hlt : head new + (sizeof_log_entry + size m e) < 2 ^ 32) :
    Appends new (fsckCopy m new i) offs' ((version m e).moved (head new)) ∧
      head (fsckCopy m new i) = head new + (sizeof_log_entry + size m e) := by
  have hsb := hnew.sb_le
  obtain ⟨hmem, -, -, -⟩ := found_spec h hfind
  rw [fsckCopy_eq h.tiles hsb hfind]
  rw [sizeof_sb] at hsb
  set n := sizeof_log_entry + size m e
  set new' := putHead (new.copyFrom m (head new) e n) (head new + n)
  have hhead : head new' = head new + n := (u32_put32 _ _ _).trans (Nat.mod_eq_of_lt hlt)
  have hcopy : Copied m new' e (head new) := by
    intro k hk
    exact (byte_put32_out _ _ (by omega)).trans (byte_copyFrom _ _ _ hk)
  have hkeep : ∀ x, sizeof_sb ≤ x → x < head new → new'.byte x = new.byte x := by
    intro x hx₁ hx₂
    rw [sizeof_sb] at hx₁
    exact (byte_put32_out _ _ (by omega)).trans (byte_copyFrom_out _ _ _ (by omega))
  have hnext : head new' = nextEntry new' (head new) := by
    rw [hhead, nextEntry, hcopy.size, Nat.add_assoc]
  have hversion : version new' (head new) = (version m e).moved (head new) := hcopy.version
  rw [← hversion]
  refine ⟨hnew.append hkeep hnext fun hd => ?_, hhead⟩
  rw [hcopy.mode] at hd
  exact hcopy.dirOk (h.dirs e hmem hd)

/-! ### The rounds -/

/-- The entries found for different numbers are different entries of the log. -/
theorem nodup_found (h : Tiles m offs) (is : List ℕ) (hnd : is.Nodup) :
    (is.filterMap (find_latest_log_entry m)).Nodup ∧
      is.filterMap (find_latest_log_entry m) ⊆ offs := by
  constructor
  · refine hnd.filterMap fun j k e hj hk => ?_
    exact (found_live h hj).2.1.symm.trans (found_live h hk).2.1
  · intro e he
    obtain ⟨j, -, hj⟩ := List.mem_filterMap.mp he
    exact (found_live h hj).1

theorem newSuperblock_spec :
    WellFormed newSuperblock [] ∧ head newSuperblock = sizeof_sb ∧ log newSuperblock = [] := by
  have hhead : head newSuperblock = sizeof_sb := by decide +kernel
  have htiles : Tiles newSuperblock [] := by
    rw [Tiles, hhead]
    exact Chain.nil _
  exact ⟨⟨htiles, fun o ho => by cases ho⟩, hhead, log_eq htiles⟩

/-- **The log after the rounds for some numbers** holds their last versions. -/
theorem compact_rounds (h : WellFormed m offs) {is : List ℕ} (hnd : is.Nodup) :
    ∃ offs', WellFormed (is.foldl (fsckCopy m) newSuperblock) offs' ∧
      head (is.foldl (fsckCopy m) newSuperblock) = sizeof_sb +
        ((is.filterMap (find_latest_log_entry m)).map fun e => nextEntry m e - e).sum ∧
      SameVersions (log (is.foldl (fsckCopy m) newSuperblock)) (compacted (log m) is) := by
  induction is using List.reverseRecOn with
  | nil =>
    obtain ⟨hwf, hhead, hlog⟩ := newSuperblock_spec
    rw [List.foldl_nil]
    exact ⟨[], hwf, by simpa using hhead, by rw [hlog]; rfl⟩
  | append_singleton is j ih =>
    obtain ⟨offs₁, hwf, hhead₁, hsame⟩ := ih (List.nodup_append.mp hnd).1
    obtain ⟨hfnd, hsub⟩ := nodup_found h.tiles _ hnd
    have hsum := h.tiles.sum_le (lt_nextEntry m) hfnd hsub
    rw [List.foldl_append, List.foldl_cons, List.foldl_nil, compacted, List.filterMap_append,
      List.filterMap_append, ← compacted]
    rw [List.filterMap_append, List.map_append, List.sum_append] at hsum
    generalize is.foldl (fsckCopy m) newSuperblock = new₁ at *
    have hlt := head_lt m
    cases hfind : find_latest_log_entry m j with
    | none =>
      have hnone : latest (log m) j = none := by
        rwa [find_latest_eq h.tiles, Option.map_eq_none_iff] at hfind
      have heq : fsckCopy m new₁ j = new₁ := by rw [fsckCopy, hfind]
      rw [heq]
      refine ⟨offs₁, hwf, ?_, ?_⟩
      · rw [List.filterMap_cons_none hfind, List.filterMap_nil, List.append_nil, hhead₁]
      · rw [List.filterMap_cons_none hnone, List.filterMap_nil, List.append_nil]
        exact hsame
    | some e =>
      rw [List.filterMap_cons_some hfind, List.filterMap_nil] at hsum ⊢
      have hstep : nextEntry m e - e = sizeof_log_entry + size m e := by
        rw [nextEntry]
        omega
      rw [List.map_singleton, List.sum_singleton, hstep] at hsum
      obtain ⟨happ, hhead₂⟩ := fsckCopy_appends h hwf hfind (by omega)
      obtain ⟨-, -, -, hlast⟩ := found_spec h hfind
      refine ⟨_, happ.wf, ?_, ?_⟩
      · rw [hhead₂, hhead₁, List.map_append, List.sum_append, List.map_singleton, List.sum_singleton,
          hstep, Nat.add_assoc]
      · rw [happ.log_eq, List.filterMap_cons_some hlast, List.filterMap_nil]
        exact hsame.append rfl

/-- **The compacted log** tiles, is not longer and holds the last version of every number. -/
theorem compact_spec (h : WellFormed m offs) (hnum : find_max_inode_number m < 2 ^ 31) :
    ∃ offs', WellFormed (compact m) offs' ∧ head (compact m) ≤ head m ∧
      SameVersions (log (compact m)) (compacted (log m) (fsckNumbers m)) := by
  have hnd : (fsckNumbers m).Nodup := List.nodup_range
  obtain ⟨offs', hwf, hhead, hsame⟩ := compact_rounds h hnd
  have heq : compact m = (fsckNumbers m).foldl (fsckCopy m) newSuperblock := by
    simp only [compact, if_pos hnum, fsckNumbers]
  rw [← heq] at hwf hhead hsame
  obtain ⟨hfnd, hsub⟩ := nodup_found h.tiles _ hnd
  refine ⟨offs', hwf, ?_, hsame⟩
  rw [hhead]
  exact h.tiles.sum_le (lt_nextEntry m) hfnd hsub

/-! ### The image -/

/-- The log lies between the head field and the head: memories that agree there hold the same log. -/
theorem WellFormed.congr (h : WellFormed m offs)
    (hbyte : ∀ x, 4 ≤ x → x < head m → m'.byte x = m.byte x) :
    WellFormed m' offs ∧ head m' = head m ∧ log m' = log m := by
  have hsb := h.sb_le
  rw [sizeof_sb] at hsb
  have hhead : head m' = head m := u32_congr fun k hk => hbyte _ (by omega) (by omega)
  have hcopy : ∀ o ∈ offs, Copied m m' o o := fun o ho =>
    h.copied ho fun x hx => hbyte x (by rw [sizeof_sb] at hx; omega)
  have htiles : Tiles m' offs := by
    rw [Tiles, hhead]
    refine h.tiles.congr fun o ho => ?_
    rw [nextEntry, nextEntry, (hcopy o ho).size]
  refine ⟨⟨htiles, fun o ho hd => ?_⟩, hhead, ?_⟩
  · rw [(hcopy o ho).mode] at hd
    exact (hcopy o ho).dirOk (h.dirs o ho hd)
  · rw [log_eq htiles, log_eq h.tiles]
    exact List.map_congr_left fun o ho => (hcopy o ho).version

theorem byte_fsck {x : ℕ} (hx : x < im.disk_size) : (fsck im).mem.byte x = (compact im.mem).byte x := by
  have h := byte_copyFrom (a := 0) im.mem (compact im.mem) 0 hx
  rwa [Nat.zero_add] at h

/-- A log that is no longer than one header is a live root alone. -/
theorem single_entry (h : WellFormed m offs) (hroot : (latest (log m) 0).isSome)
    (hle : head m ≤ sizeof_sb + sizeof_log_entry) :
    offs = [sizeof_sb] ∧ size m sizeof_sb = 0 ∧ head m = sizeof_sb + sizeof_log_entry ∧
      find_latest_log_entry m 0 = some sizeof_sb := by
  obtain ⟨r, hr⟩ := Option.isSome_iff_exists.mp hroot
  obtain ⟨hmem, -⟩ := (mem_log h.tiles).mp (mem_of_latest hr).1
  have honly : ∀ o ∈ offs, o = sizeof_sb ∧ size m o = 0 ∧ head m = sizeof_sb + sizeof_log_entry := by
    intro o ho
    obtain ⟨h₁, h₂⟩ := h.bounds ho
    rw [nextEntry] at h₂
    exact ⟨by omega, by omega, by omega⟩
  obtain ⟨hpos, hsize, hhead⟩ := honly r.pos hmem
  rw [hpos] at hsize
  have hchain : Tiles m [sizeof_sb] := by
    have hnext : nextEntry m sizeof_sb = head m := by rw [nextEntry, hsize, hhead, Nat.add_zero]
    exact Chain.cons (hnext ▸ Chain.nil _)
  refine ⟨h.tiles.unique (lt_nextEntry m) hchain, hsize, hhead, ?_⟩
  rw [find_latest_eq h.tiles, hr, Option.map_some, hpos]

/-- The bytes of the head field are those of the head. -/
theorem byte_head (m : Mem) {x : ℕ} (h₁ : 4 ≤ x) (h₂ : x < 8) : m.byte x = leByte (head m) (x - 4) := by
  rw [head, u32, leByte_leNat (by omega)]
  congr 1
  omega

/-- Compaction leaves a live root alone as it is. -/
theorem byte_compact_single (h : WellFormed m offs) (hroot : (latest (log m) 0).isSome)
    (hle : head m ≤ sizeof_sb + sizeof_log_entry) :
    ∀ x, 4 ≤ x → x < head m → (compact m).byte x = m.byte x := by
  obtain ⟨rfl, hsize, hhead, hfind⟩ := single_entry h hroot hle
  obtain ⟨-, hsb, -⟩ := newSuperblock_spec
  have hmax : find_max_inode_number m = 0 := by
    rcases (find_max_spec h.tiles).2 with h0 | ⟨r, hr, hmax⟩
    · exact h0
    · rw [← hmax, ← (found_spec h hfind).2.1, ← List.mem_singleton.mp ((mem_log h.tiles).mp hr).1]
      exact (congrArg Rec.ino ((mem_log h.tiles).mp hr).2).symm
  have heq : compact m = putHead (newSuperblock.copyFrom m sizeof_sb sizeof_sb sizeof_log_entry)
      (sizeof_sb + sizeof_log_entry) := by
    have hone : compact m = fsckCopy m newSuperblock 0 := by
      simp only [compact, hmax, if_pos (show 0 < 2 ^ 31 by decide)]
      rfl
    rw [hone, fsckCopy_eq h.tiles hsb.ge hfind, hsize, hsb, Nat.add_zero]
  intro x hx₁ hx₂
  by_cases hx : x < 8
  · have hhead' : head (compact m) = head m := by
      rw [heq, hhead]
      exact u32_put32 _ _ _
    rw [byte_head _ hx₁ hx, byte_head _ hx₁ hx, hhead']
  · rw [hhead, sizeof_sb] at hx₂
    obtain ⟨k, rfl⟩ : ∃ k, x = sizeof_sb + k := ⟨x - sizeof_sb, by rw [sizeof_sb]; omega⟩
    rw [sizeof_sb] at hx hx₂
    rw [heq]
    exact (byte_put32_out _ _ (by rw [sizeof_sb]; omega)).trans (byte_copyFrom _ _ _ (by omega))

/-- **`fsck.wfs`** leaves a log that tiles and holds the last version of every number. -/
theorem fsck_spec (h : WellFormed im.mem offs) (hroot : (latest (log im.mem) 0).isSome)
    (hle : head im.mem ≤ max (sizeof_sb + sizeof_log_entry) im.disk_size)
    (hnum : find_max_inode_number im.mem < 2 ^ 31) :
    ∃ offs', WellFormed (fsck im).mem offs' ∧ head (fsck im).mem ≤ head im.mem ∧
      SameVersions (log (fsck im).mem) (compacted (log im.mem) (fsckNumbers im.mem)) := by
  obtain ⟨offs', hwf, hhead, hsame⟩ := compact_spec h hnum
  have hbyte : ∀ x, 4 ≤ x → x < head (compact im.mem) → (fsck im).mem.byte x = (compact im.mem).byte x := by
    intro x hx₁ hx₂
    by_cases hx : x < im.disk_size
    · exact byte_fsck hx
    · -- the disk is too small for its root, whose bytes stay in the rest of the mapped page
      have hsingle := byte_compact_single h hroot (by omega) x hx₁ (by omega)
      rw [hsingle]
      exact byte_copyFrom_out _ _ _ (by omega)
  obtain ⟨hwf', hhead', hlog⟩ := hwf.congr hbyte
  rw [← hlog] at hsame
  exact ⟨offs', hwf', hhead'.trans_le hhead, hsame⟩

end OperatingSystems.Wfs
