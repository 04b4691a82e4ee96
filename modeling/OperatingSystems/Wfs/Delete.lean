import OperatingSystems.Wfs.Writers

/-!
# Marking an inode deleted

`delete_log_entries` walks the log and sets the `deleted` field of every live entry of an inode.  The walk
writes while it reads, so the proof follows it entry by entry (`Marked`, one lemma for each case of the
loop body): a store to one entry's field changes neither the sizes the walk steps by nor what the later
entries say.

* **`delete_log_entries_spec`** — the log afterwards is `VersionLog.kill` of the log before, it tiles the
  same bytes, and the returned flag says whether there was a live entry.
-/

namespace OperatingSystems.Wfs

open OperatingSystems.ByteMemory OperatingSystems.ByteMemory.Mem OperatingSystems.BoundedLoop
open OperatingSystems.VersionLog

variable {m M : Mem} {offs xs : List ℕ} {o i : ℕ}

/-- The value of a version whose entry has been marked deleted. -/
def markDeleted (v : Inode × List UInt8) : Inode × List UInt8 := ({ v.1 with deleted := 1 }, v.2)

/-- One round of `delete_log_entries`. -/
def markStep (i : ℕ) (s : Mem × Bool) (e : ℕ) : Mem × Bool :=
  if isLive s.1 i e then (s.1.put32 (e + 4) 1, true) else s

/-- `M` is `m` with the `deleted` fields of the live entries of `i` among `xs` set. -/
structure Marked (m M : Mem) (i : ℕ) (xs : List ℕ) : Prop where
  frame : ∀ x, (∀ o ∈ xs, isLive m i o → x < o + 4 ∨ o + 8 ≤ x) → M.byte x = m.byte x
  set : ∀ o ∈ xs, isLive m i o → ∀ k, k < 4 → M.byte (o + 4 + k) = leByte 1 k
  writes : ∃ ws, Writes m M ws ∧ ∀ w ∈ ws, ∃ o ∈ xs, w = (o + 4, 4)

/-- Entries at least a header apart do not touch each other's headers. -/
theorem Marked.u32 (h : Marked m M i xs) {a : ℕ} (ha : ∀ o ∈ xs, a + 4 ≤ o + 4 ∨ o + 8 ≤ a) :
    M.u32 a = m.u32 a :=
  u32_congr fun k hk => h.frame _ fun o ho _ => by
    have := ha o ho
    omega

/-- **One round of the walk.** -/
theorem Marked.snoc (h : Marked m M i xs) (hxs : ∀ x ∈ xs, x + sizeof_log_entry ≤ o) (b : Bool) :
    Marked m (markStep i (M, b) o).1 i (xs ++ [o]) ∧
      (markStep i (M, b) o).2 = (b || isLive m i o) := by
  have hsame : isLive M i o = isLive m i o := by
    have hfield : ∀ k, k = 0 ∨ k = 4 → M.u32 (o + k) = m.u32 (o + k) := by
      intro k hk
      refine h.u32 fun x hx => ?_
      have := hxs x hx
      rw [sizeof_log_entry] at this
      omega
    rw [isLive, isLive, show inode_number M o = inode_number m o from hfield 0 (.inl rfl),
      show deleted M o = deleted m o from hfield 4 (.inr rfl)]
  obtain ⟨ws, hws, hle⟩ := h.writes
  have hle' : ∀ w ∈ ws, ∃ x ∈ xs ++ [o], w = (x + 4, 4) := fun w hw => by
    obtain ⟨x, hx, hwx⟩ := hle w hw
    exact ⟨x, List.mem_append_left _ hx, hwx⟩
  rw [markStep, hsame]
  by_cases hl : isLive m i o
  · rw [if_pos hl, hl, Bool.or_true]
    refine ⟨⟨fun x hx => ?_, fun x hx hlx k hk => ?_, ⟨_, hws.put32 _ _, ?_⟩⟩, rfl⟩
    · have hx' := hx o (by simp) hl
      rw [byte_put32_out _ _ (by omega)]
      exact h.frame x fun y hy => hx y (List.mem_append_left _ hy)
    · rcases List.mem_append.mp hx with hx | hx
      · have := hxs x hx
        rw [sizeof_log_entry] at this
        rw [byte_put32_out _ _ (by omega)]
        exact h.set x hx hlx k hk
      · rw [List.mem_singleton.mp hx, byte_put32 _ _ hk]
    · rw [List.forall_mem_cons]
      exact ⟨⟨o, by simp, rfl⟩, hle'⟩
  · rw [if_neg hl, Bool.eq_false_iff.mpr hl, Bool.or_false]
    refine ⟨⟨fun x hx => h.frame x fun y hy => hx y (List.mem_append_left _ hy), fun x hx hlx => ?_,
      ⟨ws, hws, hle'⟩⟩, rfl⟩
    rcases List.mem_append.mp hx with hx | hx
    · exact h.set x hx hlx
    · rw [List.mem_singleton.mp hx] at hlx
      exact absurd hlx hl

/-- The whole walk over entries at least a header apart. -/
theorem markAll (m : Mem) (i : ℕ) (xs : List ℕ)
    (hxs : xs.Pairwise fun a b => a + sizeof_log_entry ≤ b) :
    Marked m (xs.foldl (markStep i) (m, false)).1 i xs ∧
      (xs.foldl (markStep i) (m, false)).2 = xs.any (isLive m i) := by
  induction xs using List.reverseRecOn with
  | nil => exact ⟨⟨fun _ _ => rfl, fun o ho => absurd ho (List.not_mem_nil),
      ⟨[], Writes.refl m, fun w hw => absurd hw (List.not_mem_nil)⟩⟩, rfl⟩
  | append_singleton xs o ih =>
    rw [List.pairwise_append] at hxs
    obtain ⟨hm, hb⟩ := ih hxs.1
    have hstep := hm.snoc (fun x hx => hxs.2.2 x hx o (by simp))
      (xs.foldl (markStep i) (m, false)).2
    rw [List.foldl_append, List.foldl_cons, List.foldl_nil, List.any_append, ← hb]
    simpa only [List.any_cons, List.any_nil, Bool.or_false] using hstep

/-- The headers of visited entries do not overlap. -/
theorem visits_apart (h : Visits m offs) {x y : ℕ} (hx : x ∈ offs) (hy : y ∈ offs) (hxy : x < y) :
    x + sizeof_log_entry ≤ y := by
  obtain ⟨b, hc, -, -⟩ := h
  have := hc.next_le (lt_nextEntry m) hx hy hxy
  rw [nextEntry] at this
  omega

/-- The walk of `delete_log_entries` is the left fold of its rounds. -/
theorem delete_log_entries_eq (h : Visits m offs) :
    delete_log_entries m i = offs.foldl (markStep i) (m, false) := by
  have hapart := fun x hx y hy => visits_apart h (x := x) (y := y) hx hy
  obtain ⟨b, hc, hb, hoffs⟩ := h
  -- a store to a `deleted` field moves neither the head nor the step of the walk
  have hscan := scan_eq_foldl (fun s : Mem × Bool => head s.1) (fun s => nextEntry s.1)
    (fun e s => markStep i s e) (fun s => head s.1 = head m ∧ ∀ o ∈ offs, nextEntry s.1 o = nextEntry m o)
    (lt_nextEntry m) (fun s hs => hs.1) hoffs hb ?_ hc (s := (m, false)) ⟨rfl, fun _ _ => rfl⟩
    (n := head m + 1) (by omega)
  · rw [delete_log_entries, scanLog]
    rw [show (fun e (s : Mem × Bool) => if isLive s.1 i e then (s.1.put32 (e + 4) 1, true) else s) =
      fun e s => markStep i s e from rfl, hscan, Option.getD_some]
  · intro s hs o ho
    have ho₁ := (hc.bounds (lt_nextEntry m) o ho).1
    rw [sizeof_sb] at ho₁
    have hkeep : head (markStep i s o).1 = head m ∧
        ∀ x ∈ offs, nextEntry (markStep i s o).1 x = nextEntry m x := by
      rw [markStep]
      split
      · refine ⟨?_, fun x hx => ?_⟩
        · rw [head, u32_put32_out _ _ (by omega)]
          exact hs.1
        · rw [← hs.2 x hx, nextEntry, nextEntry, size, u32_put32_out, size]
          rcases lt_trichotomy x o with hxo | rfl | hxo
          · have := hapart x hx o ho hxo
            rw [sizeof_log_entry] at this
            omega
          · omega
          · have := hapart o ho x hx hxo
            rw [sizeof_log_entry] at this
            omega
      · exact hs
    exact ⟨hkeep, hkeep.2 o ho⟩

/-- The walk marks the live entries that it visits, and says whether there is one. -/
theorem delete_log_entries_marked (h : Visits m offs) (i : ℕ) :
    Marked m (delete_log_entries m i).1 i offs ∧
      (delete_log_entries m i).2 = offs.any (isLive m i) := by
  have hpair : offs.Pairwise fun a b => a + sizeof_log_entry ≤ b := by
    obtain ⟨b, hc, -, -⟩ := id h
    exact (hc.pairwise (lt_nextEntry m)).imp_of_mem fun ha hb hab => visits_apart h ha hb hab
  rw [delete_log_entries_eq h]
  exact markAll m i offs hpair

/-- Setting one `deleted` field changes that field alone. -/
theorem version_put_deleted (m : Mem) (o : ℕ) :
    version (m.put32 (o + 4) 1) o =
        { version m o with live := false, val := markDeleted (version m o).val } ∧
      ∀ j k, (m.put32 (o + 4) 1).byte (dentryAt (data o) j + k) = m.byte (dentryAt (data o) j + k) := by
  have hfield : ∀ k, 8 ≤ k → (m.put32 (o + 4) 1).u32 (o + k) = m.u32 (o + k) :=
    fun k hk => u32_put32_out _ _ (by omega)
  have hino : inode_number (m.put32 (o + 4) 1) o = inode_number m o := u32_put32_out _ _ (by omega)
  have hdel : deleted (m.put32 (o + 4) 1) o = 1 := u32_put32 _ _ _
  have hbyte : ∀ j k, (m.put32 (o + 4) 1).byte (dentryAt (data o) j + k) =
      m.byte (dentryAt (data o) j + k) :=
    fun j k => byte_put32_out _ _ (by rw [dentryAt, data, sizeof_log_entry]; omega)
  have hsize : size (m.put32 (o + 4) 1) o = size m o := hfield 24 (by omega)
  have hmode : mode (m.put32 (o + 4) 1) o = mode m o := hfield 8 (by omega)
  have hdents : dents (m.put32 (o + 4) 1) o = dents m o := by
    rw [dents, dents, num_entries, num_entries, hsize]
    refine List.map_congr_left fun j _ => ?_
    obtain ⟨hname, hnum, -⟩ := dentry_copied fun k _ => hbyte j k
    rw [hname, hnum]
  have hinode : getInode (m.put32 (o + 4) 1) o = { getInode m o with deleted := 1 } := by
    simp only [getInode, hino, hdel, hmode, hsize, uid, gid, flags, atime, mtime, ctime, links,
      hfield 12 (by omega), hfield 16 (by omega), hfield 20 (by omega), hfield 28 (by omega),
      hfield 32 (by omega), hfield 36 (by omega), hfield 40 (by omega)]
  have hdata : (m.put32 (o + 4) 1).bytes (data o) (size m o) = m.bytes (data o) (size m o) :=
    bytes_congr fun k _ => byte_put32_out _ _ (by rw [data, sizeof_log_entry]; omega)
  refine ⟨?_, hbyte⟩
  rw [version, version, hino, hdel, hmode, hdents, hinode, hsize, hdata]
  rfl

theorem isLive_eq (m : Mem) (i o : ℕ) :
    isLive m i o = ((version m o).live && decide ((version m o).ino = i)) := by
  rw [isLive, Bool.and_comm, beq_eq_decide]
  rfl

/-- **Every entry afterwards is the killed version**, of the same size. -/
theorem Marked.entry (h : Marked m M i offs) (hw : WellFormed m offs) (ho : o ∈ offs) :
    version M o = killRec markDeleted i (version m o) ∧ size M o = size m o ∧
      (S_ISDIR (mode M o) → DirOk M o) := by
  have hother : ∀ x ∈ offs, x ≠ o → ∀ a, o ≤ a → a < nextEntry m o → a < x + 4 ∨ x + 8 ≤ a := by
    intro x hx hxo a ha₁ ha₂
    rcases lt_or_gt_of_ne hxo with hxo | hxo
    · have := hw.tiles.next_le (lt_nextEntry m) hx ho hxo
      rw [nextEntry, sizeof_log_entry] at this
      omega
    · have := hw.tiles.next_le (lt_nextEntry m) ho hx hxo
      omega
  by_cases hl : isLive m i o
  · obtain ⟨hmark, hbyte⟩ := version_put_deleted m o
    have hsize : size (m.put32 (o + 4) 1) o = size m o := u32_put32_out _ _ (by omega)
    have hmode : mode (m.put32 (o + 4) 1) o = mode m o := u32_put32_out _ _ (by omega)
    -- the entry is that of the memory where its field alone has been set
    have hcopy : Copied (m.put32 (o + 4) 1) M o o := by
      intro k hk
      rw [hsize] at hk
      by_cases hk4 : k < 4 ∨ 8 ≤ k
      · rw [byte_put32_out _ _ (by omega)]
        refine h.frame _ fun x hx _ => ?_
        by_cases hxo : x = o
        · omega
        · exact hother x hx hxo _ (by omega) (by rw [nextEntry]; omega)
      · obtain ⟨b, rfl⟩ : ∃ b, k = 4 + b := ⟨k - 4, by omega⟩
        rw [← Nat.add_assoc, byte_put32 _ _ (by omega)]
        exact h.set o ho hl b (by omega)
    refine ⟨?_, hcopy.size.trans hsize, fun hd => hcopy.dirOk ?_⟩
    · rw [hcopy.version, hmark, killRec, if_pos (isLive_eq m i o ▸ hl)]
      rfl
    · rw [hcopy.mode, hmode] at hd
      have hok := hw.dirs o ho hd
      have hnum : num_entries (m.put32 (o + 4) 1) o = num_entries m o := by
        rw [num_entries, num_entries, hsize]
      refine ⟨hsize ▸ hok.whole, fun j hj => ?_, fun j hj => ?_⟩
      · rw [hbyte]
        exact hok.ended j (hnum ▸ hj)
      · rw [(dentry_copied fun k _ => hbyte j k).2.1]
        exact hok.small j (hnum ▸ hj)
  · have hcopy : Copied m M o o := by
      intro k hk
      refine h.frame _ fun x hx hlx => hother x hx ?_ _ (by omega) (by rw [nextEntry]; omega)
      rintro rfl
      exact hl hlx
    refine ⟨?_, hcopy.size, fun hd => hcopy.dirOk (hw.dirs o ho (hcopy.mode ▸ hd))⟩
    rw [hcopy.version, killRec, if_neg (isLive_eq m i o ▸ hl)]
    rfl

/-- **`delete_log_entries`** kills the inode in the log and stores below the head only. -/
theorem delete_log_entries_spec (hw' : WellFormed m offs) (i : ℕ) :
    let s := delete_log_entries m i
    WellFormed s.1 offs ∧ log s.1 = kill markDeleted i (log m) ∧ head s.1 = head m ∧
      s.2 = (latest (log m) i).isSome ∧
      (∀ o ∈ offs, version s.1 o = killRec markDeleted i (version m o) ∧ size s.1 o = size m o) ∧
      ∃ ws, Writes m s.1 ws ∧ ∀ w ∈ ws, w.1 + w.2 ≤ head m := by
  intro s
  obtain ⟨hm, hflag⟩ := delete_log_entries_marked hw'.tiles.visits i
  have hver : ∀ o ∈ offs, _ := fun o ho => hm.entry hw' ho
  have hhead : head s.1 = head m := u32_congr fun k hk => hm.frame _ fun o ho _ => by
    have := (hw'.bounds ho).1
    rw [sizeof_sb] at this
    omega
  have htiles : Tiles s.1 offs := by
    rw [Tiles, hhead]
    refine hw'.tiles.congr fun o ho => ?_
    rw [nextEntry, nextEntry, (hver o ho).2.1]
  refine ⟨⟨htiles, fun o ho => (hver o ho).2.2⟩, ?_, hhead, ?_,
    fun o ho => ⟨(hver o ho).1, (hver o ho).2.1⟩, ?_⟩
  · rw [log_eq htiles, log_eq hw'.tiles, kill, List.map_map]
    exact List.map_congr_left fun o ho => (hver o ho).1
  · rw [hflag, latest_log hw'.tiles, Option.isSome_map, Bool.eq_iff_iff, List.any_eq_true,
      List.getLast?_isSome, Ne, List.filter_eq_nil_iff]
    push Not
    rfl
  · obtain ⟨ws, hws, hle⟩ := hm.writes
    refine ⟨ws, hws, fun w hw => ?_⟩
    obtain ⟨o, ho, rfl⟩ := hle w hw
    have := (hw'.bounds ho).2
    rw [nextEntry, sizeof_log_entry] at this
    omega

end OperatingSystems.Wfs
