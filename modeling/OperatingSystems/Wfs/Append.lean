import OperatingSystems.Wfs.LogView
import OperatingSystems.Wfs.Paths

/-!
# What the writers append

Each writer of the log (`appendParent`, `appendEmpty`, `appendFile`, `appendUnlinked`) puts one entry at
the head and moves the head behind it.  `Appends m m' offs r` says so for the version `r`: the log of `m'`
tiles again and is the log of `m` with `r` at its end.  `Filled m m'` says that every byte of the new
entry has been stored and nothing at or beyond the new head.

This file has the general part and `appendParent`; the writers that build a new inode follow in
`Writers`.
-/

namespace OperatingSystems.Wfs

open OperatingSystems.ByteMemory OperatingSystems.ByteMemory.Mem OperatingSystems.BoundedLoop
open OperatingSystems.VersionLog

variable {m m' : Mem} {offs : List ℕ} {o o' i : ℕ} {t : Str}

/-- The entry at `o'` of `m'` is a copy of the one at `o` of `m`. -/
def Copied (m m' : Mem) (o o' : ℕ) : Prop :=
  ∀ i, i < sizeof_log_entry + size m o → m'.byte (o' + i) = m.byte (o + i)

/-- Every byte of the entries appended between the two heads has been stored, and no byte at or beyond the
new head. -/
def Filled (m m' : Mem) : Prop :=
  ∃ ws, Writes m m' ws ∧ (∀ x, head m ≤ x → x < head m' → Covers ws x) ∧ ∀ w ∈ ws, w.1 + w.2 ≤ head m'

/-- `m'` is `m` with the version `r` appended. -/
structure Appends (m m' : Mem) (offs : List ℕ) (r : Version) : Prop where
  wf : WellFormed m' (offs ++ [head m])
  log_eq : log m' = log m ++ [r]
  pos : r.pos = head m
  head_eq : head m' = head m + sizeof_log_entry + r.val.1.size

/-- What holds of every version, and of the new one, holds of every version afterwards. -/
theorem Appends.forall_log {m m' : Mem} {offs : List ℕ} {r : Version} {P : Version → Prop}
    (happ : Appends m m' offs r) (h : ∀ s ∈ log m, P s) (hr : P r) : ∀ s ∈ log m', P s := by
  intro s hs
  rw [happ.log_eq] at hs
  rcases List.mem_append.mp hs with hs | hs
  · exact h s hs
  · rw [List.mem_singleton.mp hs]
    exact hr

/-! ### Copies of entries -/

theorem Copied.u32 (h : Copied m m' o o') {k : ℕ} (hk : k + 4 ≤ sizeof_log_entry) :
    m'.u32 (o' + k) = m.u32 (o + k) :=
  u32_congr fun i hi => by
    rw [Nat.add_assoc, Nat.add_assoc]
    exact h _ (by omega)

theorem Copied.getInode (h : Copied m m' o o') : getInode m' o' = getInode m o := by
  have h0 := h.u32 (k := 0) (by decide)
  rw [Nat.add_zero, Nat.add_zero] at h0
  simp only [Wfs.getInode, inode_number, deleted, mode, uid, gid, flags, size, atime, mtime, ctime, links,
    h0, h.u32 (show 4 + 4 ≤ sizeof_log_entry by decide),
    h.u32 (show 8 + 4 ≤ sizeof_log_entry by decide), h.u32 (show 12 + 4 ≤ sizeof_log_entry by decide),
    h.u32 (show 16 + 4 ≤ sizeof_log_entry by decide), h.u32 (show 20 + 4 ≤ sizeof_log_entry by decide),
    h.u32 (show 24 + 4 ≤ sizeof_log_entry by decide), h.u32 (show 28 + 4 ≤ sizeof_log_entry by decide),
    h.u32 (show 32 + 4 ≤ sizeof_log_entry by decide), h.u32 (show 36 + 4 ≤ sizeof_log_entry by decide),
    h.u32 (show 40 + 4 ≤ sizeof_log_entry by decide)]

theorem Copied.size (h : Copied m m' o o') : size m' o' = size m o :=
  congrArg Inode.size h.getInode

theorem Copied.mode (h : Copied m m' o o') : mode m' o' = mode m o :=
  congrArg Inode.mode h.getInode

theorem Copied.num_entries (h : Copied m m' o o') : num_entries m' o' = num_entries m o := by
  rw [Wfs.num_entries, Wfs.num_entries, h.size]

/-- A copied dentry has the same name and number. -/
theorem dentry_copied {d d' : ℕ} (h : ∀ k, k < sizeof_dentry → m'.byte (d' + k) = m.byte (d + k)) :
    dentryName m' d' = dentryName m d ∧ dentryIno m' d' = dentryIno m d ∧
      m'.byte (d' + 31) = m.byte (d + 31) := by
  refine ⟨?_, u64_congr fun k hk => ?_, h 31 (by decide)⟩
  · rw [dentryName, dentryName, bytes_congr]
    exact fun k hk => h k (hk.trans (by decide))
  · rw [Nat.add_assoc, Nat.add_assoc]
    exact h _ (by simp only [MAX_FILE_NAME_LEN, sizeof_dentry]; omega)

theorem Copied.dentry_byte (h : Copied m m' o o') (hi : i < Wfs.num_entries m o) (k : ℕ)
    (hk : k < sizeof_dentry) :
    m'.byte (dentryAt (data o') i + k) = m.byte (dentryAt (data o) i + k) := by
  have hn := num_entries_le m o
  have hmul : sizeof_dentry * (i + 1) ≤ sizeof_dentry * Wfs.num_entries m o :=
    Nat.mul_le_mul_left _ hi
  simp only [dentryAt, data, Nat.add_assoc, Nat.mul_succ] at hmul ⊢
  exact h _ (by omega)

theorem Copied.dents (h : Copied m m' o o') : dents m' o' = dents m o := by
  rw [Wfs.dents, Wfs.dents, h.num_entries]
  apply List.map_congr_left
  intro i hi
  obtain ⟨hname, hino, -⟩ := dentry_copied (h.dentry_byte (List.mem_range.mp hi))
  rw [hname, hino]

/-- **A copied entry is the same version** at another place. -/
theorem Copied.version (h : Copied m m' o o') : version m' o' = { version m o with pos := o' } := by
  have hi := h.getInode
  have hino : inode_number m' o' = inode_number m o := congrArg Inode.inode_number hi
  have hdel : deleted m' o' = deleted m o := congrArg Inode.deleted hi
  have hbytes : m'.bytes (data o') (Wfs.size m o) = m.bytes (data o) (Wfs.size m o) := by
    refine bytes_congr fun k hk => ?_
    rw [data, data, Nat.add_assoc, Nat.add_assoc]
    exact h _ (by omega)
  rw [Wfs.version, Wfs.version, hi, hino, hdel, h.mode, h.dents, h.size, hbytes]

theorem Copied.dirOk (h : Copied m m' o o') (hd : DirOk m o) : DirOk m' o' := by
  refine ⟨by rw [h.size]; exact hd.whole, fun i hi => ?_, fun i hi => ?_⟩
  · rw [h.num_entries] at hi
    rw [(dentry_copied (h.dentry_byte hi)).2.2]
    exact hd.ended i hi
  · rw [h.num_entries] at hi
    rw [(dentry_copied (h.dentry_byte hi)).2.1]
    exact hd.small i hi

/-! ### Appending one entry -/

theorem WellFormed.bounds (h : WellFormed m offs) (ho : o ∈ offs) :
    sizeof_sb ≤ o ∧ nextEntry m o ≤ head m :=
  h.tiles.bounds (lt_nextEntry m) o ho

theorem WellFormed.sb_le (h : WellFormed m offs) : sizeof_sb ≤ head m :=
  h.tiles.le (lt_nextEntry m)

/-- The entries below a point that no store reaches are untouched. -/
theorem WellFormed.copied (h : WellFormed m offs) (ho : o ∈ offs)
    (hkeep : ∀ x, sizeof_sb ≤ x → x < head m → m'.byte x = m.byte x) : Copied m m' o o := by
  obtain ⟨h₁, h₂⟩ := h.bounds ho
  intro i hi
  rw [nextEntry] at h₂
  exact hkeep _ (by omega) (by omega)

/-- **One more entry at the head.** -/
theorem WellFormed.append (h : WellFormed m offs)
    (hkeep : ∀ x, sizeof_sb ≤ x → x < head m → m'.byte x = m.byte x)
    (hhead : head m' = nextEntry m' (head m)) (hdir : S_ISDIR (mode m' (head m)) → DirOk m' (head m)) :
    Appends m m' offs (version m' (head m)) := by
  have hcopy : ∀ o ∈ offs, Copied m m' o o := fun o ho => h.copied ho hkeep
  have htiles : Tiles m' (offs ++ [head m]) := by
    rw [Tiles, hhead]
    refine (h.tiles.congr fun o ho => ?_).snoc
    rw [nextEntry, nextEntry, (hcopy o ho).size]
  refine ⟨⟨htiles, ?_⟩, ?_, rfl, hhead⟩
  · intro o ho
    rcases List.mem_append.mp ho with ho | ho
    · rw [(hcopy o ho).mode]
      exact fun hd => (hcopy o ho).dirOk (h.dirs o ho hd)
    · rw [List.mem_singleton.mp ho]
      exact hdir
  · rw [log_eq htiles, log_eq h.tiles, List.map_append, List.map_singleton]
    congr 1
    exact List.map_congr_left fun o ho => (hcopy o ho).version

theorem Appends.head_le {r : Version} (h : Appends m m' offs r) : head m ≤ head m' := by
  rw [h.head_eq]
  omega

/-- Stores below the head followed by complete entries. -/
theorem Filled.after {m₁ : Mem} {ws : List (ℕ × ℕ)} (hws : Writes m m₁ ws)
    (hle : ∀ w ∈ ws, w.1 + w.2 ≤ head m) (hhead : head m₁ = head m) (h : Filled m₁ m')
    (hmono : head m ≤ head m') : Filled m m' := by
  obtain ⟨vs, hvs, hcov, hle'⟩ := h
  refine ⟨vs ++ ws, hws.trans hvs, fun x hx₁ hx₂ => ?_, fun w hw => ?_⟩
  · exact Covers.append.mpr (.inl (hcov x (hhead ▸ hx₁) hx₂))
  · rcases List.mem_append.mp hw with hw | hw
    · exact hle' w hw
    · exact (hle w hw).trans hmono

/-- Complete entries one after the other. -/
theorem Filled.trans {m₁ : Mem} (h : Filled m m₁) (h' : Filled m₁ m')
    (hmono : head m₁ ≤ head m') : Filled m m' := by
  obtain ⟨ws, hws, hcov, hle⟩ := h
  obtain ⟨vs, hvs, hcov', hle'⟩ := h'
  refine ⟨vs ++ ws, hws.trans hvs, fun x hx₁ hx₂ => ?_, fun w hw => ?_⟩
  · by_cases hx : x < head m₁
    · exact Covers.append.mpr (.inr (hcov x hx₁ hx))
    · exact Covers.append.mpr (.inl (hcov' x (not_lt.mp hx) hx₂))
  · rcases List.mem_append.mp hw with hw | hw
    · exact hle' w hw
    · exact (hle w hw).trans hmono

/-! ### The writers -/

/-- `appendParent` with the fields it reads back written out. -/
theorem appendParent_eq (parent : ℕ) (f : Str) (ino : ℕ) (he : sizeof_sb ≤ head m)
    (hs : size m parent + sizeof_dentry < 2 ^ 32) :
    appendParent m parent f ino =
      putHead ((((m.copyFrom m (head m) parent (sizeof_log_entry + size m parent)).putBytes
        (dentryAt (data (head m)) (num_entries m parent)) (nameField f)).put64
        (dentryAt (data (head m)) (num_entries m parent) + MAX_FILE_NAME_LEN) (intToSize ino)).put32
        (head m + 24) (size m parent + sizeof_dentry))
        (head m + sizeof_log_entry + (size m parent + sizeof_dentry)) := by
  simp only [appendParent, dentryEnd]
  set m1 := m.copyFrom m (head m) parent (sizeof_log_entry + size m parent)
  have hsize1 : size m1 (head m) = size m parent :=
    u32_copyFrom m m parent (by simp only [sizeof_log_entry]; omega)
  have hn1 : num_entries m1 (head m) = num_entries m parent := by
    rw [num_entries, num_entries, hsize1]
  rw [hn1]
  set d := dentryAt (data (head m)) (num_entries m parent)
  have hd : head m + 44 ≤ d := by
    simp only [d, dentryAt, data, sizeof_log_entry]
    omega
  set m2 := (m1.putBytes d (nameField f)).put64 (d + MAX_FILE_NAME_LEN) (intToSize ino)
  have hsize2 : size m2 (head m) = size m parent := by
    rw [← hsize1, size, u32_put64_out _ _ (by omega), u32_putBytes_out _ _ (by omega), size]
  rw [hsize2]
  set m3 := m2.put32 (head m + 24) (size m parent + sizeof_dentry)
  have hsize3 : size m3 (head m) = size m parent + sizeof_dentry := by
    rw [size, u32_put32, Nat.mod_eq_of_lt hs]
  have hhead3 : head m3 = head m := by
    rw [sizeof_sb] at he
    rw [head, u32_put32_out _ _ (by omega), u32_put64_out _ _ (by omega),
      u32_putBytes_out _ _ (by omega), u32_copyFrom_out _ _ _ (by omega), head]
  rw [hsize3, hhead3]

/-- A dentry that has been written out. -/
theorem dentry_written {d ino : ℕ} {f : Str} (hf0 : 0 ∉ f) (hf : f.length < MAX_FILE_NAME_LEN)
    (hname : ∀ k, k < MAX_FILE_NAME_LEN →
      m'.byte (d + k) = (m.putBytes d (nameField f)).byte (d + k)) (hino : dentryIno m' d = ino) :
    dentryName m' d = f ∧ dentryIno m' d = ino ∧ m'.byte (d + 31) = 0 := by
  have hbytes : m'.bytes d MAX_FILE_NAME_LEN = nameField f := by
    have h := bytes_putBytes m d (nameField f)
    rw [length_nameField] at h
    rw [← h]
    exact bytes_congr hname
  refine ⟨by rw [dentryName, hbytes, takeWhile_nameField hf0 hf], hino, ?_⟩
  have h31 : 31 < (m'.bytes d MAX_FILE_NAME_LEN).length := by rw [bytes_length]; decide
  rw [← getElem_bytes m' d MAX_FILE_NAME_LEN 31 h31, ← List.getD_eq_getElem _ 0 h31, hbytes]
  exact nameField_last hf

/-- **The bytes of the new version of the parent**: a copy of the old entry with one more dentry. -/
theorem appendParent_bytes (parent : ℕ) (hsb : sizeof_sb ≤ head m) {f : Str} (hf0 : 0 ∉ f)
    (hf : f.length < MAX_FILE_NAME_LEN) {ino : ℕ} (hino : ino < 2 ^ 31)
    (hlt : head m + sizeof_log_entry + (size m parent + sizeof_dentry) < 2 ^ 32) :
    let m' := appendParent m parent f ino
    let e := head m
    let n := num_entries m parent
    head m' = e + sizeof_log_entry + (size m parent + sizeof_dentry) ∧
      size m' e = size m parent + sizeof_dentry ∧
      (∀ k, k + 4 ≤ sizeof_log_entry → (k + 4 ≤ 24 ∨ 28 ≤ k) → m'.u32 (e + k) = m.u32 (parent + k)) ∧
      (∀ i, i < n → ∀ k, k < sizeof_dentry →
        m'.byte (dentryAt (data e) i + k) = m.byte (dentryAt (data parent) i + k)) ∧
      (dentryName m' (dentryAt (data e) n) = f ∧ dentryIno m' (dentryAt (data e) n) = ino ∧
        m'.byte (dentryAt (data e) n + 31) = 0) ∧
      ∀ x, sizeof_sb ≤ x → x < e → m'.byte x = m.byte x := by
  intro m' e n
  have heq : m' = _ := appendParent_eq parent f ino hsb (by omega)
  have hlen := length_nameField f
  have hn := num_entries_le m parent
  simp only [sizeof_sb, sizeof_log_entry, sizeof_dentry, MAX_FILE_NAME_LEN, dentryAt, data,
    putHead] at hsb heq hlt hlen hn ⊢
  rw [show head m = e from rfl] at hsb heq hlt
  rw [show num_entries m parent = n from rfl] at heq hn
  set s := size m parent
  rw [heq]
  refine ⟨?_, ?_, ?_, ?_, ?_, ?_⟩
  · rw [head, u32_put32, Nat.mod_eq_of_lt hlt]
  · rw [size, u32_put32_out _ _ (by omega), u32_put32, Nat.mod_eq_of_lt (by omega)]
  · intro k hk hk'
    rw [u32_put32_out _ _ (by omega), u32_put32_out _ _ (by omega), u32_put64_out _ _ (by omega),
      u32_putBytes_out _ _ (by omega), u32_copyFrom _ _ _ (by omega)]
  · intro i hi k hk
    rw [byte_put32_out _ _ (by omega), byte_put32_out _ _ (by omega), byte_put64_out _ _ (by omega),
      byte_putBytes_out _ _ (by omega), show e + 44 + 40 * i + k = e + (44 + 40 * i + k) by omega,
      byte_copyFrom _ _ _ (by omega)]
    congr 1
    omega
  · refine dentry_written (m := m.copyFrom m e parent (44 + s)) hf0 hf (fun k hk => ?_) ?_
    · rw [MAX_FILE_NAME_LEN] at hk
      rw [byte_put32_out _ _ (by omega), byte_put32_out _ _ (by omega), byte_put64_out _ _ (by omega)]
    · rw [dentryIno, MAX_FILE_NAME_LEN, u64_put32_out _ _ (by omega), u64_put32_out _ _ (by omega),
        u64_put64, intToSize_of_lt hino, Nat.mod_eq_of_lt (by omega)]
  · intro x hx₁ hx₂
    rw [byte_put32_out _ _ (by omega), byte_put32_out _ _ (by omega), byte_put64_out _ _ (by omega),
      byte_putBytes_out _ _ (by omega), byte_copyFrom_out _ _ _ (by omega)]

/-- **The new version of the parent** lists one more name. -/
theorem appendParent_appends (h : WellFormed m offs) {parent : ℕ} (hp : parent ∈ offs) {f : Str}
    (hf0 : 0 ∉ f) (hf : f.length < MAX_FILE_NAME_LEN) {ino : ℕ} (hino : ino < 2 ^ 31)
    (hlt : head m + sizeof_log_entry + (size m parent + sizeof_dentry) < 2 ^ 32) :
    let m' := appendParent m parent f ino
    let r := version m' (head m)
    Appends m m' offs r ∧ r.ino = inode_number m parent ∧ r.live = (deleted m parent == 0) ∧
      r.val.1.size = size m parent + sizeof_dentry ∧ r.val.1.mode = mode m parent ∧
      r.node = (if S_ISDIR (mode m parent) then .dir (dents m parent ++ [(f, ino)]) else .file) := by
  intro m' r
  obtain ⟨hhead, hsize, hfield, hold, hnew, hkeep⟩ :=
    appendParent_bytes parent h.sb_le hf0 hf hino hlt
  rw [show appendParent m parent f ino = m' from rfl] at hhead hsize hfield hold hnew hkeep
  have hnum : num_entries m' (head m) = num_entries m parent + 1 := by
    rw [num_entries, hsize, sizeof_dentry, Nat.add_div_right _ (by decide)]
    rfl
  have hmode : mode m' (head m) = mode m parent := hfield 8 (by decide) (by omega)
  have hdents : dents m' (head m) = dents m parent ++ [(f, ino)] := by
    rw [dents, hnum, List.range_succ, List.map_append, List.map_singleton, hnew.1, hnew.2.1,
      Nat.mod_eq_of_lt (show ino < 2 ^ 32 by omega), dents]
    congr 1
    refine List.map_congr_left fun i hi => ?_
    obtain ⟨hname, hnum', -⟩ := dentry_copied (hold i (List.mem_range.mp hi))
    rw [hname, hnum']
  have hnext : nextEntry m' (head m) = head m' := by rw [nextEntry, hsize, hhead]
  refine ⟨h.append hkeep hnext.symm fun hd => ?_, hfield 0 (by decide) (by omega), ?_, hsize, hmode, ?_⟩
  · have hpd := h.dirs parent hp (hmode ▸ hd)
    refine ⟨by rw [hsize]; exact (Nat.dvd_add_self_right).mpr hpd.whole, ?_, ?_⟩
    · intro i hi
      rw [hnum] at hi
      rcases Nat.lt_succ_iff_lt_or_eq.mp hi with hi | rfl
      · rw [(dentry_copied (hold i hi)).2.2]
        exact hpd.ended i hi
      · exact hnew.2.2
    · intro i hi
      rw [hnum] at hi
      rcases Nat.lt_succ_iff_lt_or_eq.mp hi with hi | rfl
      · rw [(dentry_copied (hold i hi)).2.1]
        exact hpd.small i hi
      · rw [hnew.2.1]
        omega
  · show (deleted m' (head m) == 0) = _
    rw [show deleted m' (head m) = deleted m parent from hfield 4 (by decide) (by omega)]
  · show (if S_ISDIR (mode m' (head m)) then _ else _) = _
    rw [hmode, hdents]

/-- The new version of a directory is stored completely. -/
theorem appendParent_filled (hsb : sizeof_sb ≤ head m) {parent : ℕ} {f : Str} {ino : ℕ}
    (hwhole : sizeof_dentry ∣ size m parent)
    (hlt : head m + sizeof_log_entry + (size m parent + sizeof_dentry) < 2 ^ 32) :
    Filled m (appendParent m parent f ino) := by
  have hhead : head (appendParent m parent f ino) =
      head m + sizeof_log_entry + (size m parent + sizeof_dentry) := by
    rw [appendParent_eq parent f ino hsb (by omega), head, putHead, u32_put32, Nat.mod_eq_of_lt hlt]
  have hn : sizeof_dentry * num_entries m parent = size m parent := Nat.mul_div_cancel' hwhole
  refine ⟨[(4, 4), (head m + 24, 4), (dentryAt (data (head m)) (num_entries m parent) + 32, 8),
    (dentryAt (data (head m)) (num_entries m parent), (nameField f).length),
    (head m, sizeof_log_entry + size m parent)], ?_, ?_⟩
  · rw [appendParent_eq parent f ino hsb (by omega)]
    exact (((((Writes.refl m).copyFrom _ _ _ _).putBytes _ _).put64 _ _).put32 _ _).put32 _ _
  · rw [hhead, length_nameField]
    simp only [covers_cons, dentryAt, data, sizeof_sb, sizeof_log_entry, sizeof_dentry,
      MAX_FILE_NAME_LEN, List.forall_mem_cons, List.not_mem_nil, false_imp_iff, implies_true,
      and_true] at hsb hn ⊢
    exact ⟨fun x hx₁ hx₂ => by omega, by omega, by omega, by omega, by omega, by omega⟩

end OperatingSystems.Wfs
