import OperatingSystems.Wfs.Fsck

/-!
# Compaction byte for byte

`Fsck` describes a compacted log by its versions.  Here the bytes of the whole disk are described, and of
the old log only that it tiles is assumed.

* **`fsck_keeps_live`** — the disk afterwards holds a superblock, one copy of the last live entry of each
  inode that has one, in the order of their numbers, and zeros; a second `fsck.wfs` changes nothing.
-/

namespace OperatingSystems.Wfs

open OperatingSystems.ByteMemory OperatingSystems.ByteMemory.Mem OperatingSystems.BoundedLoop

variable {im : Image} {m m' new : Mem} {offs offs' : List ℕ} {e e' i : ℕ} {is : List ℕ}

/-- Whether some entry of inode `i` is live. -/
def hasLive (m : Mem) (i : ℕ) : Bool := (find_latest_log_entry m i).isSome

/-- The last live entry of inode `i` among those at `offs`. -/
def lastLive (m : Mem) (offs : List ℕ) (i : ℕ) : Option ℕ := (offs.filter (isLive m i)).getLast?

/-- `new` holds, behind its superblock, the copies of the latest entries of the numbers `is` in `m`, and
zeros. -/
structure Packed (m new : Mem) (is offs' : List ℕ) : Prop where
  tiles : Tiles new offs'
  magic : new.u32 0 = WFS_MAGIC
  numbers : offs'.map (inode_number new) = is.filter (hasLive m)
  copies : ∀ o ∈ offs', ∃ e, find_latest_log_entry m (inode_number new o) = some e ∧ Copied m new e o
  head_eq : head new = sizeof_sb + ((is.filterMap (find_latest_log_entry m)).map fun e => nextEntry m e - e).sum
  zero : ∀ x, head new ≤ x → new.byte x = 0

/-! ### One round -/

theorem Copied.inode_number {o o' : ℕ} (h : Copied m m' o o') :
    inode_number m' o' = inode_number m o :=
  congrArg Inode.inode_number h.getInode

/-- Memories that agree on an entry hold the same copy. -/
theorem Copied.congr {o o' : ℕ} {m'' : Mem} (h : Copied m m' o o')
    (hbyte : ∀ x, o' ≤ x → x < nextEntry m' o' → m''.byte x = m'.byte x) : Copied m m'' o o' := by
  intro k hk
  rw [hbyte _ (by omega) (by rw [nextEntry, h.size]; omega), h k hk]

theorem Packed.start (m : Mem) : Packed m newSuperblock [] [] := by
  have hhead : head newSuperblock = sizeof_sb := by decide +kernel
  refine ⟨?_, by decide +kernel, rfl, by simp, by simpa using hhead, fun x hx => ?_⟩
  · rw [Tiles, hhead]
    exact .nil _
  · rw [hhead, sizeof_sb] at hx
    simp only [newSuperblock, putHead]
    rw [byte_put32_out _ _ (by omega), byte_put32_out _ _ (by omega), byte_put32_out _ _ (by omega)]

/-- A round that finds nothing. -/
theorem Packed.skip (h : Packed m new is offs') (hfind : find_latest_log_entry m i = none) :
    Packed m (fsckCopy m new i) (is ++ [i]) offs' := by
  have heq : fsckCopy m new i = new := by rw [fsckCopy, hfind]
  have hlive : hasLive m i = false := by rw [hasLive, hfind]; rfl
  rw [heq]
  refine ⟨h.tiles, h.magic, ?_, h.copies, ?_, h.zero⟩
  · rw [List.filter_append, List.filter_singleton, hlive, h.numbers]
    exact (List.append_nil _).symm
  · rw [List.filterMap_append, List.filterMap_cons_none hfind, List.filterMap_nil, List.append_nil]
    exact h.head_eq

/-- **A round that finds an entry** copies it to the head. -/
theorem Packed.copy (ht : Tiles m offs) (h : Packed m new is offs')
    (hfind : find_latest_log_entry m i = some e)
    (hlt : head new + (sizeof_log_entry + size m e) < 2 ^ 32) :
    Packed m (fsckCopy m new i) (is ++ [i]) (offs' ++ [head new]) := by
  have hsb : sizeof_sb ≤ head new := h.tiles.le (lt_nextEntry new)
  have hlive : hasLive m i = true := by rw [hasLive, hfind]; rfl
  rw [fsckCopy_eq ht hsb hfind]
  rw [sizeof_sb] at hsb
  set n := sizeof_log_entry + size m e with hn
  set new' := putHead (new.copyFrom m (head new) e n) (head new + n)
  have hhead : head new' = head new + n := (u32_put32 _ _ _).trans (Nat.mod_eq_of_lt hlt)
  have hcopy : Copied m new' e (head new) := by
    intro k hk
    exact (byte_put32_out _ _ (by omega)).trans (byte_copyFrom _ _ _ hk)
  have hkeep : ∀ x, sizeof_sb ≤ x → x < head new → new'.byte x = new.byte x := by
    intro x hx₁ hx₂
    rw [sizeof_sb] at hx₁
    exact (byte_put32_out _ _ (by omega)).trans (byte_copyFrom_out _ _ _ (by omega))
  have hold : ∀ o ∈ offs', ∀ x, o ≤ x → x < nextEntry new o → new'.byte x = new.byte x := by
    intro o ho x hx₁ hx₂
    obtain ⟨hlow, hhigh⟩ := h.tiles.bounds (lt_nextEntry new) o ho
    exact hkeep x (by omega) (by omega)
  have hself : ∀ o ∈ offs', Copied new new' o o := by
    intro o ho k hk
    exact hold o ho _ (by omega) (by rw [nextEntry]; omega)
  refine ⟨?_, ?_, ?_, ?_, ?_, ?_⟩
  · rw [Tiles, show head new' = nextEntry new' (head new) by rw [hhead, nextEntry, hcopy.size, hn]; omega]
    refine (Chain.congr h.tiles fun o ho => ?_).snoc
    rw [nextEntry, nextEntry, (hself o ho).size]
  · rw [← h.magic]
    refine u32_congr fun b hb => ?_
    exact (byte_put32_out _ _ (by omega)).trans (byte_copyFrom_out _ _ _ (by omega))
  · rw [List.map_append, List.map_singleton, List.filter_append, List.filter_singleton, hlive,
      hcopy.inode_number, (found_live ht hfind).2.1, ← h.numbers]
    exact congrArg (· ++ [i]) (List.map_congr_left fun o ho => (hself o ho).inode_number)
  · intro o ho
    rcases List.mem_append.mp ho with ho | ho
    · obtain ⟨d, hd, hc⟩ := h.copies o ho
      exact ⟨d, by rw [(hself o ho).inode_number, hd], hc.congr (hold o ho)⟩
    · rw [List.mem_singleton.mp ho]
      exact ⟨e, by rw [hcopy.inode_number, (found_live ht hfind).2.1, hfind], hcopy⟩
  · rw [hhead, h.head_eq, List.filterMap_append, List.filterMap_cons_some hfind, List.filterMap_nil,
      List.map_append, List.sum_append, List.map_singleton, List.sum_singleton, nextEntry]
    omega
  · intro x hx
    rw [hhead] at hx
    rw [← h.zero x (by omega)]
    exact (byte_put32_out _ _ (by omega)).trans (byte_copyFrom_out _ _ _ (by omega))

/-! ### All rounds -/

/-- **The rounds for different numbers** pack their latest entries. -/
theorem packed_rounds (ht : Tiles m offs) (hnd : is.Nodup) :
    ∃ offs', Packed m (is.foldl (fsckCopy m) newSuperblock) is offs' := by
  induction is using List.reverseRecOn with
  | nil => exact ⟨[], .start m⟩
  | append_singleton is j ih =>
    obtain ⟨offs', h⟩ := ih (List.nodup_append.mp hnd).1
    obtain ⟨hfnd, hsub⟩ := nodup_found ht _ hnd
    have hsum := ht.sum_le (lt_nextEntry m) hfnd hsub
    rw [List.filterMap_append, List.map_append, List.sum_append] at hsum
    rw [List.foldl_append, List.foldl_cons, List.foldl_nil]
    cases hfind : find_latest_log_entry m j with
    | none => exact ⟨offs', h.skip hfind⟩
    | some e =>
      have hhead := head_lt m
      have hstep : nextEntry m e - e = sizeof_log_entry + size m e := by
        rw [nextEntry]
        omega
      rw [List.filterMap_cons_some hfind, List.filterMap_nil, List.map_singleton, List.sum_singleton,
        hstep] at hsum
      exact ⟨_, h.copy ht hfind (by rw [h.head_eq]; omega)⟩

/-- A number above the maximum has no live entry. -/
theorem hasLive_le (ht : Tiles m offs) (hi : hasLive m i) : i ≤ find_max_inode_number m := by
  obtain ⟨e, he⟩ := Option.isSome_iff_exists.mp hi
  obtain ⟨hmem, hino, -⟩ := found_live ht he
  rw [← hino]
  exact (find_max_spec ht).1 (version m e) (by rw [log_eq ht]; exact List.mem_map_of_mem hmem)

/-- The live numbers are those below any bound beyond the maximum. -/
theorem filter_range_live (ht : Tiles m offs) {n : ℕ} (hn : find_max_inode_number m < n) :
    (fsckNumbers m).filter (hasLive m) = (List.range n).filter (hasLive m) := by
  obtain ⟨k, rfl⟩ : ∃ k, n = find_max_inode_number m + 1 + k := ⟨n - find_max_inode_number m - 1, by omega⟩
  have hnone : ((List.range k).map (find_max_inode_number m + 1 + ·)).filter (hasLive m) = [] := by
    refine List.filter_eq_nil_iff.mpr fun j hj hl => ?_
    obtain ⟨x, -, rfl⟩ := List.mem_map.mp hj
    have := hasLive_le ht hl
    omega
  rw [List.range_add (n := find_max_inode_number m + 1), List.filter_append, hnone, List.append_nil]
  rfl

/-- Rounds for numbers without a live entry do nothing. -/
theorem foldl_fsckCopy_filter (m new : Mem) (is : List ℕ) :
    (is.filter (hasLive m)).foldl (fsckCopy m) new = is.foldl (fsckCopy m) new := by
  induction is generalizing new with
  | nil => rfl
  | cons j is ih =>
    by_cases hj : hasLive m j
    · rw [List.filter_cons_of_pos hj, List.foldl_cons, List.foldl_cons, ih]
    · have hnone : find_latest_log_entry m j = none := by
        rwa [hasLive, Option.not_isSome_iff_eq_none] at hj
      rw [List.filter_cons_of_neg hj, List.foldl_cons, ih, fsckCopy, hnone]

/-- Copying equal entries gives equal memories. -/
theorem fsckCopy_congr (he : find_latest_log_entry m i = some e) (he' : find_latest_log_entry m' i = some e')
    (hc : Copied m m' e e') (new : Mem) : fsckCopy m' new i = fsckCopy m new i := by
  have hdel : deleted m' e' = deleted m e := congrArg Inode.deleted hc.getInode
  have hcopy : new.copyFrom m' (head new) e' (sizeof_log_entry + size m e) =
      new.copyFrom m (head new) e (sizeof_log_entry + size m e) := by
    rw [copyFrom, copyFrom, store, store, Mem.mk.injEq]
    refine ⟨funext fun x => ?_, rfl⟩
    split
    · rename_i hx
      exact hc _ (by omega)
    · rfl
  unfold fsckCopy
  rw [he, he']
  simp only [hdel, hc.size, hcopy]

/-- **Two logs with the same latest entries** are packed into the same memory. -/
theorem compact_congr (ht : Tiles m offs) (ht' : Tiles m' offs')
    (hnum : find_max_inode_number m < 2 ^ 31) (hnum' : find_max_inode_number m' < 2 ^ 31)
    (hrel : ∀ j, Option.Rel (Copied m m') (find_latest_log_entry m j) (find_latest_log_entry m' j)) :
    compact m' = compact m := by
  have hlive : hasLive m' = hasLive m := by
    funext j
    have hj := hrel j
    rw [hasLive, hasLive]
    generalize find_latest_log_entry m j = a at hj
    generalize find_latest_log_entry m' j = b at hj
    cases hj with
    | none => rfl
    | some => rfl
  have hlist : (fsckNumbers m').filter (hasLive m') = (fsckNumbers m).filter (hasLive m) := by
    rw [filter_range_live ht (n := find_max_inode_number m + find_max_inode_number m' + 1) (by omega),
      filter_range_live ht' (n := find_max_inode_number m + find_max_inode_number m' + 1) (by omega), hlive]
  have heq : ∀ M, find_max_inode_number M < 2 ^ 31 → compact M =
      ((fsckNumbers M).filter (hasLive M)).foldl (fsckCopy M) newSuperblock := by
    intro M hM
    rw [foldl_fsckCopy_filter]
    simp only [compact, if_pos hM, fsckNumbers]
  rw [heq m hnum, heq m' hnum', hlist]
  refine List.foldl_ext _ _ _ fun new j hj => ?_
  have hrelj := hrel j
  obtain ⟨e, he⟩ := Option.isSome_iff_exists.mp (List.mem_filter.mp hj).2
  rw [he] at hrelj
  generalize hb : find_latest_log_entry m' j = b at hrelj
  cases hrelj with
  | some hc => exact fsckCopy_congr he hb hc new

/-! ### The image -/

/-- What `fsck.wfs` makes of an image whose entries are at `offs`. -/
structure KeepsLive (im im' : Image) (offs offs' : List ℕ) : Prop where
  magic : im'.mem.u32 0 = WFS_MAGIC
  tiles : Tiles im'.mem offs'
  sorted : (offs'.map (inode_number im'.mem)).Pairwise (· < ·)
  numbers : ∀ i, i ∈ offs'.map (inode_number im'.mem) ↔ ∃ o ∈ offs, isLive im.mem i o
  copies : ∀ o' ∈ offs', ∃ o, lastLive im.mem offs (inode_number im'.mem o') = some o ∧
    Copied im.mem im'.mem o o'
  head_le : head im'.mem ≤ head im.mem
  zero : ∀ x, head im'.mem ≤ x → x < im.disk_size → im'.mem.byte x = 0

theorem hasLive_iff (ht : Tiles m offs) : hasLive m i ↔ ∃ o ∈ offs, isLive m i o := by
  rw [hasLive, find_latest_visits ht.visits, List.getLast?_isSome, Ne, List.filter_eq_nil_iff]
  push Not
  rfl

theorem find_max_le (ht : Tiles m offs) {n : ℕ} (hn : ∀ o ∈ offs, inode_number m o ≤ n) :
    find_max_inode_number m ≤ n := by
  refine find_max_of_all (P := (· ≤ n)) ht (Nat.zero_le n) fun r hr => ?_
  rw [log_eq ht] at hr
  obtain ⟨o, ho, rfl⟩ := List.mem_map.mp hr
  exact hn o ho

/-- **The bytes of the compacted disk.** -/
theorem fsck_packed (ht : Tiles im.mem offs) (hhead : head im.mem ≤ im.disk_size)
    (hnum : find_max_inode_number im.mem < 2 ^ 31) : ∃ offs', KeepsLive im (fsck im) offs offs' := by
  have hnd : (fsckNumbers im.mem).Nodup := List.nodup_range
  obtain ⟨offs', hp⟩ := packed_rounds ht hnd
  have heq : compact im.mem = (fsckNumbers im.mem).foldl (fsckCopy im.mem) newSuperblock := by
    simp only [compact, if_pos hnum, fsckNumbers]
  rw [← heq] at hp
  obtain ⟨hfnd, hsub⟩ := nodup_found ht _ hnd
  have hle : head (compact im.mem) ≤ head im.mem := by
    rw [hp.head_eq]
    exact ht.sum_le (lt_nextEntry _) hfnd hsub
  have hsb : sizeof_sb ≤ head (compact im.mem) := hp.tiles.le (lt_nextEntry _)
  rw [sizeof_sb] at hsb
  have hbyte : ∀ x, x < im.disk_size → (fsck im).mem.byte x = (compact im.mem).byte x :=
    fun x hx => byte_fsck hx
  have hhead' : head (fsck im).mem = head (compact im.mem) :=
    u32_congr fun b hb => hbyte _ (by omega)
  have hentry : ∀ o ∈ offs', ∀ x, o ≤ x → x < nextEntry (compact im.mem) o →
      (fsck im).mem.byte x = (compact im.mem).byte x := by
    intro o ho x _ hx
    have hbound := (hp.tiles.bounds (lt_nextEntry _) o ho).2
    exact hbyte x (by omega)
  have hself : ∀ o ∈ offs', Copied (compact im.mem) (fsck im).mem o o := by
    intro o ho k hk
    exact hentry o ho _ (by omega) (by rw [nextEntry]; omega)
  have hnumbers : offs'.map (inode_number (fsck im).mem) =
      (fsckNumbers im.mem).filter (hasLive im.mem) :=
    (List.map_congr_left fun o ho => (hself o ho).inode_number).trans hp.numbers
  refine ⟨offs', ?_, ?_, ?_, fun i => ?_, fun o ho => ?_, hhead'.trans_le hle, fun x hx₁ hx₂ => ?_⟩
  · rw [← hp.magic]
    exact u32_congr fun b hb => hbyte _ (by omega)
  · rw [Tiles, hhead']
    refine Chain.congr hp.tiles fun o ho => ?_
    rw [nextEntry, nextEntry, (hself o ho).size]
  · rw [hnumbers]
    exact List.Pairwise.filter _ List.pairwise_lt_range
  · rw [hnumbers, List.mem_filter, hasLive_iff ht, fsckNumbers, List.mem_range, and_iff_right_iff_imp]
    intro hl
    exact Nat.lt_succ_of_le (hasLive_le ht ((hasLive_iff ht).mpr hl))
  · obtain ⟨e, he, hc⟩ := hp.copies o ho
    rw [← (hself o ho).inode_number, find_latest_visits ht.visits] at he
    exact ⟨e, he, hc.congr (hentry o ho)⟩
  · rw [hbyte x hx₂]
    exact hp.zero x (hhead' ▸ hx₁)

/-- Every inode has the same latest entry before and after. -/
theorem KeepsLive.find_latest {im' : Image} (h : KeepsLive im im' offs offs') (ht : Tiles im.mem offs)
    (i : ℕ) :
    Option.Rel (Copied im.mem im'.mem) (find_latest_log_entry im.mem i) (find_latest_log_entry im'.mem i) := by
  have hold : find_latest_log_entry im.mem i = lastLive im.mem offs i := find_latest_visits ht.visits
  cases hnew : find_latest_log_entry im'.mem i with
  | some o' =>
    obtain ⟨hmem, hino, -⟩ := found_live h.tiles hnew
    obtain ⟨o, ho, hc⟩ := h.copies o' hmem
    rw [hold, ← hino, ho]
    exact .some hc
  | none =>
    cases hfind : find_latest_log_entry im.mem i with
    | none => exact .none
    | some e =>
      -- the copy of a live entry is live
      obtain ⟨hmem, hino, hdel⟩ := found_live ht hfind
      have hnum := (h.numbers i).mpr ⟨e, hmem, by rw [isLive, hino, hdel]; simp⟩
      obtain ⟨o', ho', hino'⟩ := List.mem_map.mp hnum
      obtain ⟨o, ho, hc⟩ := h.copies o' ho'
      rw [hino', ← hold] at ho
      have hdel' : deleted im'.mem o' = 0 :=
        (congrArg Inode.deleted hc.getInode).trans (found_live ht ho).2.2
      have hlive : hasLive im'.mem i := (hasLive_iff h.tiles).mpr
        ⟨o', ho', by rw [isLive, hino', hdel']; simp⟩
      rw [hasLive, hnew] at hlive
      cases hlive

/-- **`fsck.wfs` keeps exactly the live data**, finds the same entries afterwards, and changes nothing when
it is run again. -/
theorem fsck_keeps_live (ht : Tiles im.mem offs) (hhead : head im.mem ≤ im.disk_size)
    (hnum : ∀ o ∈ offs, inode_number im.mem o < 2 ^ 31 - 1) :
    (∃ offs', KeepsLive im (fsck im) offs offs') ∧
      (∀ i, Option.Rel (Copied im.mem (fsck im).mem) (find_latest_log_entry im.mem i)
        (find_latest_log_entry (fsck im).mem i)) ∧
      ∀ x, x < im.disk_size → (fsck (fsck im)).mem.byte x = (fsck im).mem.byte x := by
  have hmax : find_max_inode_number im.mem < 2 ^ 31 :=
    (find_max_le ht fun o ho => (hnum o ho).le).trans_lt (by decide)
  obtain ⟨offs', h⟩ := fsck_packed ht hhead hmax
  refine ⟨⟨offs', h⟩, h.find_latest ht, fun x hx => ?_⟩
  have hmax' : find_max_inode_number (fsck im).mem < 2 ^ 31 := by
    refine (find_max_le h.tiles (n := 2 ^ 31 - 1) fun o ho => ?_).trans_lt (by decide)
    obtain ⟨d, hd, hl⟩ := (h.numbers _).mp (List.mem_map_of_mem ho)
    rw [isLive, Bool.and_eq_true, beq_iff_eq] at hl
    rw [← hl.1]
    exact (hnum d hd).le
  rw [byte_fsck (show x < (fsck im).disk_size from hx), compact_congr ht h.tiles hmax hmax' (h.find_latest ht),
    byte_fsck hx]

/-- Of the five entries of the disk with `/a/x`, `fsck.wfs` keeps three. -/
theorem fsck_keeps_live_diskAX :
    (∃ offs', KeepsLive diskAX (fsck diskAX) [8, 52, 136, 180, 264] offs') ∧
      (∀ i, Option.Rel (Copied diskAX.mem (fsck diskAX).mem) (find_latest_log_entry diskAX.mem i)
        (find_latest_log_entry (fsck diskAX).mem i)) ∧
      ∀ x, x < diskAX.disk_size → (fsck (fsck diskAX)).mem.byte x = (fsck diskAX).mem.byte x :=
  fsck_keeps_live tiles_diskAX (by decide +kernel) (by decide +kernel)

end OperatingSystems.Wfs
