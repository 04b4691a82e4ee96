import OperatingSystems.Wfs.Append

/-!
# Writers that build a new inode

`appendEmpty`, `appendFile` and `appendUnlinked` all start with the field assignments of `putInode`.  The
copy loop of `wfs_unlink` is described by **`copyDentries_spec`**: the kept dentries lie one after the
other behind the new inode, and nothing else has been stored.

* **`appendEmpty_appends`**, **`appendFile_appends`**, **`appendUnlinked_appends`** — the version each
  of them appends.
* `appendEmpty_filled`, `appendFile_filled` and `appendUnlinked_filled` — when all of it is stored.
-/

namespace OperatingSystems.Wfs

open OperatingSystems.ByteMemory OperatingSystems.ByteMemory.Mem OperatingSystems.BoundedLoop
open OperatingSystems.VersionLog

variable {m m' : Mem} {offs : List ℕ} {o o' : ℕ} {i : Inode} {e : ℕ}

/-! ### A fresh inode -/

section PutInode

/-- The ranges that the field assignments store to. -/
def inodeFields (e : ℕ) : List (ℕ × ℕ) :=
  [(e + 40, 4), (e + 36, 4), (e + 32, 4), (e + 28, 4), (e + 24, 4), (e + 20, 4), (e + 16, 4), (e + 12, 4),
    (e + 8, 4), (e + 4, 4), (e, 4)]

theorem putInode_writes (m : Mem) (e : ℕ) (i : Inode) : Writes m (putInode m e i) (inodeFields e) :=
  (((((((((((Writes.refl m).put32 _ _).put32 _ _).put32 _ _).put32 _ _).put32 _ _).put32 _ _).put32
    _ _).put32 _ _).put32 _ _).put32 _ _).put32 _ _

/-- The fields fill the inode and nothing else. -/
theorem covers_inodeFields {x : ℕ} :
    Covers (inodeFields e) x ↔ e ≤ x ∧ x < e + sizeof_log_entry := by
  simp only [inodeFields, covers_cons, sizeof_log_entry]
  simp only [not_covers_nil, or_false]
  omega

theorem inodeFields_le : ∀ w ∈ inodeFields e, w.1 + w.2 ≤ e + sizeof_log_entry := by
  simp only [inodeFields, List.forall_mem_cons, List.not_mem_nil, false_imp_iff, implies_true,
    sizeof_log_entry, and_true]
  omega

theorem putInode_byte_out {x : ℕ} (h : x < e ∨ e + sizeof_log_entry ≤ x) :
    (putInode m e i).byte x = m.byte x :=
  (putInode_writes m e i).frame x (by rw [covers_inodeFields]; omega)

theorem putInode_head (h : sizeof_sb ≤ e) : head (putInode m e i) = head m := by
  rw [sizeof_sb] at h
  exact u32_congr fun k hk => putInode_byte_out (by omega)

/-- **The four fields that decide what an entry is** read back. -/
theorem putInode_fields (m : Mem) (e : ℕ) (i : Inode) :
    inode_number (putInode m e i) e = i.inode_number % 2 ^ 32 ∧
      deleted (putInode m e i) e = i.deleted % 2 ^ 32 ∧ mode (putInode m e i) e = i.mode % 2 ^ 32 ∧
      size (putInode m e i) e = i.size % 2 ^ 32 := by
  refine ⟨?_, ?_, ?_, ?_⟩
  · simp (disch := omega) only [inode_number, putInode, u32_put32_out, u32_put32]
  · simp (disch := omega) only [deleted, putInode, u32_put32_out, u32_put32]
  · simp (disch := omega) only [mode, putInode, u32_put32_out, u32_put32]
  · simp (disch := omega) only [size, putInode, u32_put32_out, u32_put32]

end PutInode

/-- What a new entry of the log must have: the fields of `putInode`, bytes below the head as they were,
and the head behind it. -/
structure FreshEntry (m m' : Mem) (k md sz : ℕ) : Prop where
  ino_eq : inode_number m' (head m) = k
  deleted_eq : deleted m' (head m) = 0
  mode_eq : mode m' (head m) = md
  size_eq : size m' (head m) = sz
  head_eq : head m' = head m + sizeof_log_entry + sz
  keep : ∀ x, sizeof_sb ≤ x → x < head m → m'.byte x = m.byte x

section Fresh

variable {env : Env} {k md sz : ℕ} {m₁ : Mem} {ws : List (ℕ × ℕ)}

/-- Stores behind a new inode leave its fields and the head alone. -/
theorem putInode_kept (hsb : sizeof_sb ≤ head m)
    (hws : Writes (putInode m (head m) (env.inode k md sz)) m₁ ws)
    (hlow : ∀ x, Covers ws x → head m + sizeof_log_entry ≤ x) :
    (∀ x, x < head m + sizeof_log_entry →
      m₁.byte x = (putInode m (head m) (env.inode k md sz)).byte x) ∧
      size m₁ (head m) = sz % 2 ^ 32 ∧ head m₁ = head m := by
  obtain ⟨-, -, -, hsize⟩ := putInode_fields m (head m) (env.inode k md sz)
  have hkeep : ∀ x, x < head m + sizeof_log_entry →
      m₁.byte x = (putInode m (head m) (env.inode k md sz)).byte x :=
    fun x hx => hws.frame x fun hc => by have := hlow x hc; omega
  refine ⟨hkeep, ?_, ?_⟩
  · refine Eq.trans (u32_congr fun b hb => hkeep _ ?_) hsize
    simp only [sizeof_log_entry]
    omega
  · refine Eq.trans ?_ (putInode_head (i := env.inode k md sz) hsb)
    rw [sizeof_sb] at hsb
    exact u32_congr fun b hb => hkeep _ (by omega)

/-- Where the head goes, also when the sum overflows. -/
theorem freshEntry_head (hsb : sizeof_sb ≤ head m)
    (hws : Writes (putInode m (head m) (env.inode k md sz)) m₁ ws)
    (hlow : ∀ x, Covers ws x → head m + sizeof_log_entry ≤ x)
    (hm' : m' = putHead m₁ (head m₁ + sizeof_log_entry + size m₁ (head m))) :
    head m' = (head m + sizeof_log_entry + sz % 2 ^ 32) % 2 ^ 32 := by
  obtain ⟨-, hsize, hhead⟩ := putInode_kept hsb hws hlow
  rw [hm', hsize, hhead, head, putHead, u32_put32]

/-- The stores after `putInode` that stay behind the inode and below the new head leave a fresh entry. -/
theorem freshEntry (hsb : sizeof_sb ≤ head m) (hk : k < 2 ^ 32) (hmd : md < 2 ^ 32)
    (hlt : head m + sizeof_log_entry + sz < 2 ^ 32)
    (hws : Writes (putInode m (head m) (env.inode k md sz)) m₁ ws)
    (hlow : ∀ x, Covers ws x → head m + sizeof_log_entry ≤ x)
    (hm' : m' = putHead m₁ (head m₁ + sizeof_log_entry + size m₁ (head m))) :
    FreshEntry m m' k md sz := by
  obtain ⟨hino, hdel, hmode, hsize⟩ := putInode_fields m (head m) (env.inode k md sz)
  obtain ⟨hkeep, -, -⟩ := putInode_kept hsb hws hlow
  have hhead := freshEntry_head hsb hws hlow hm'
  have hsz : sz % 2 ^ 32 = sz := Nat.mod_eq_of_lt (by omega)
  have hfield : ∀ j, j + 4 ≤ sizeof_log_entry →
      m'.u32 (head m + j) = (putInode m (head m) (env.inode k md sz)).u32 (head m + j) := by
    intro j hj
    rw [sizeof_sb] at hsb
    rw [hm', putHead, u32_put32_out _ _ (by omega)]
    exact u32_congr fun b hb => hkeep _ (by omega)
  refine ⟨?_, ?_, ?_, ?_, ?_, ?_⟩
  · exact (hfield 0 (by decide)).trans (hino.trans (Nat.mod_eq_of_lt hk))
  · exact (hfield 4 (by decide)).trans hdel
  · exact (hfield 8 (by decide)).trans (hmode.trans (Nat.mod_eq_of_lt hmd))
  · exact (hfield 24 (by decide)).trans (hsize.trans hsz)
  · rw [hhead, hsz, Nat.mod_eq_of_lt hlt]
  · intro x hx₁ hx₂
    rw [sizeof_sb] at hx₁
    rw [hm', putHead, byte_put32_out _ _ (by omega), hkeep x (by omega), putInode_byte_out (by omega)]

end Fresh

theorem FreshEntry.appends {k md sz : ℕ} (hf : FreshEntry m m' k md sz) (h : WellFormed m offs)
    (hdir : S_ISDIR md → DirOk m' (head m)) :
    let r := version m' (head m)
    Appends m m' offs r ∧ r.ino = k ∧ r.live ∧ r.val.1.size = sz ∧ r.val.1.mode = md ∧
      r.node = (if S_ISDIR md then .dir (dents m' (head m)) else .file) := by
  intro r
  refine ⟨h.append hf.keep ?_ ?_, hf.ino_eq, ?_, hf.size_eq, hf.mode_eq, ?_⟩
  · rw [nextEntry, hf.size_eq, hf.head_eq]
  · rw [hf.mode_eq]
    exact hdir
  · show (deleted m' (head m) == 0) = true
    rw [hf.deleted_eq]
    rfl
  · show (if S_ISDIR (mode m' (head m)) then _ else _) = _
    rw [hf.mode_eq]

/-! ### An entry without data -/

theorem appendEmpty_fresh (env : Env) {k md : ℕ} (hsb : sizeof_sb ≤ head m) (hk : k < 2 ^ 32)
    (hmd : md < 2 ^ 32) (hlt : head m + sizeof_log_entry < 2 ^ 32) :
    FreshEntry m (appendEmpty m (env.inode k md 0)) k md 0 :=
  freshEntry hsb hk hmd hlt (Writes.refl _) (fun x hx => absurd hx (not_covers_nil x)) rfl

theorem appendEmpty_appends (h : WellFormed m offs) (env : Env) {k md : ℕ} (hk : k < 2 ^ 32)
    (hmd : md < 2 ^ 32) (hlt : head m + sizeof_log_entry < 2 ^ 32) :
    let m' := appendEmpty m (env.inode k md 0)
    let r := version m' (head m)
    Appends m m' offs r ∧ r.ino = k ∧ r.live ∧ r.val.1.size = 0 ∧ r.val.1.mode = md ∧
      r.node = (if S_ISDIR md then .dir [] else .file) := by
  intro m' r
  have hf : FreshEntry m m' k md 0 := appendEmpty_fresh env h.sb_le hk hmd hlt
  have hnum : num_entries m' (head m) = 0 := by rw [num_entries, hf.size_eq]; rfl
  have hdents : dents m' (head m) = [] := by rw [dents, hnum]; rfl
  rw [← hdents]
  refine hf.appends h fun _ => ⟨by rw [hf.size_eq]; exact dvd_zero _, ?_, ?_⟩
  · intro i hi
    rw [hnum] at hi
    omega
  · intro i hi
    rw [hnum] at hi
    omega

theorem appendEmpty_filled {env : Env} {k md : ℕ} (hsb : sizeof_sb ≤ head m) (hk : k < 2 ^ 32)
    (hmd : md < 2 ^ 32) (hlt : head m + sizeof_log_entry < 2 ^ 32) :
    Filled m (appendEmpty m (env.inode k md 0)) := by
  have hf := appendEmpty_fresh env hsb hk hmd hlt
  refine ⟨_, (putInode_writes m (head m) _).put32 _ _, ?_⟩
  rw [hf.head_eq]
  refine ⟨fun x hx₁ hx₂ => covers_cons.mpr (.inr (covers_inodeFields.mpr ⟨hx₁, hx₂⟩)), ?_⟩
  rw [List.forall_mem_cons]
  refine ⟨?_, inodeFields_le⟩
  simp only [sizeof_sb] at hsb ⊢
  omega

/-! ### A new version of a file -/

theorem appendFile_fresh (env : Env) (old offset : ℕ) (buffer : List UInt8) {k sz : ℕ}
    (hsb : sizeof_sb ≤ head m) (hk : k < 2 ^ 32) (hlt : head m + sizeof_log_entry + sz < 2 ^ 32) :
    FreshEntry m (appendFile m old (env.inode k S_IFREG sz) buffer offset) k S_IFREG sz := by
  refine freshEntry hsb hk (by decide) hlt (((Writes.refl _).copyFrom _ _ _ _).putBytes _ _) ?_ rfl
  intro x hx
  simp only [covers_cons, not_covers_nil, or_false, data] at hx
  omega

theorem appendFile_appends (h : WellFormed m offs) (env : Env) (old offset : ℕ)
    (buffer : List UInt8) {k sz : ℕ} (hk : k < 2 ^ 32) (hlt : head m + sizeof_log_entry + sz < 2 ^ 32) :
    let m' := appendFile m old (env.inode k S_IFREG sz) buffer offset
    let r := version m' (head m)
    Appends m m' offs r ∧ r.ino = k ∧ r.live ∧ r.val.1.size = sz ∧ r.val.1.mode = S_IFREG ∧
      r.node = .file := by
  have hf := appendFile_fresh env old offset buffer h.sb_le hk hlt
  exact hf.appends h fun hd => absurd hd (by decide)

/-- A new version is stored completely when the buffer starts inside the old data. -/
theorem appendFile_filled {env : Env} {k sz old offset : ℕ} {buffer : List UInt8}
    (hsb : sizeof_sb ≤ head m) (hk : k < 2 ^ 32) (hlt : head m + sizeof_log_entry + sz < 2 ^ 32)
    (hold : nextEntry m old ≤ head m) (hoff : offset ≤ size m old)
    (hsz : sz = max (size m old) (offset + buffer.length)) :
    Filled m (appendFile m old (env.inode k S_IFREG sz) buffer offset) := by
  have hf := appendFile_fresh env old offset buffer hsb hk hlt
  have hsize : size (putInode m (head m) (env.inode k S_IFREG sz)) old = size m old := by
    refine u32_congr fun b hb => putInode_byte_out ?_
    rw [nextEntry, sizeof_log_entry] at hold
    omega
  refine ⟨_, (((putInode_writes m (head m) _).copyFrom _ _ _ _).putBytes _ _).put32 _ _, ?_⟩
  rw [hf.head_eq, hsize]
  rw [sizeof_sb] at hsb
  simp only [List.forall_mem_cons, data]
  refine ⟨fun x hx₁ hx₂ => ?_, by omega, by omega, by omega, fun w hw => ?_⟩
  · rw [covers_cons, covers_cons, covers_cons, covers_inodeFields]
    omega
  have := inodeFields_le w hw
  omega

/-! ### The copy loop of `wfs_unlink` -/

/-- The indices of the dentries that the loop copies. -/
def keptDentries (m : Mem) (old ino : ℕ) (is : List ℕ) : List ℕ :=
  is.filter fun i => dentryIno m (dentryAt (data old) i) ≠ ino

/-- `M` is `m` with copies of the dentries `kept` of the entry `old` stored one after the other as the data
of the entry `new`. -/
structure DentriesCopied (m M : Mem) (old new : ℕ) (kept : List ℕ) : Prop where
  writes : ∃ ws, Writes m M ws ∧
    (∀ x, Covers ws x ↔ data new ≤ x ∧ x < dentryAt (data new) kept.length) ∧
    ∀ w ∈ ws, w.1 + w.2 ≤ dentryAt (data new) kept.length
  bytes : ∀ j (hj : j < kept.length), ∀ k, k < sizeof_dentry →
    M.byte (dentryAt (data new) j + k) = m.byte (dentryAt (data old) kept[j] + k)

variable {M : Mem} {old new j ino : ℕ} {kept : List ℕ}

theorem DentriesCopied.nil (m : Mem) (old new : ℕ) : DentriesCopied m m old new [] := by
  refine ⟨⟨[], Writes.refl m, fun x => ?_, by simp⟩, fun j hj => absurd hj (Nat.not_lt_zero j)⟩
  have hx := not_covers_nil x
  simp only [List.length_nil, dentryAt, Nat.mul_zero, Nat.add_zero]
  exact ⟨fun h => absurd h hx, fun h => by omega⟩

/-- What lies before the copies is untouched. -/
theorem DentriesCopied.before (h : DentriesCopied m M old new kept) {x : ℕ} (hx : x < data new) :
    M.byte x = m.byte x := by
  obtain ⟨ws, hws, hcov, -⟩ := h.writes
  exact hws.frame x fun hc => absurd ((hcov x).mp hc).1 (by omega)

/-- One more dentry is copied. -/
theorem DentriesCopied.snoc (h : DentriesCopied m M old new kept)
    (hsrc : dentryAt (data old) j + sizeof_dentry ≤ data new) :
    let src := dentryAt (data old) j
    let dst := dentryAt (data new) kept.length
    let M₁ := M.put64 (dst + MAX_FILE_NAME_LEN) (dentryIno M src)
    DentriesCopied m (M₁.copyFrom M₁ dst src MAX_FILE_NAME_LEN) old new (kept ++ [j]) := by
  intro src dst M₁
  have hdst : data new ≤ dst := Nat.le_add_right _ _
  have hend : dentryAt (data new) (kept ++ [j]).length = dst + sizeof_dentry := by
    rw [List.length_append, List.length_singleton]
    simp only [dst, dentryAt, Nat.mul_succ]
    omega
  constructor
  · obtain ⟨ws, hws, hcov, hle⟩ := h.writes
    refine ⟨_, (hws.put64 _ _).copyFrom _ _ _ _, fun x => ?_, ?_⟩
    · rw [hend, covers_cons, covers_cons, hcov x, show dentryAt (data new) kept.length = dst from rfl]
      simp only [MAX_FILE_NAME_LEN, sizeof_dentry]
      omega
    · rw [hend, List.forall_mem_cons, List.forall_mem_cons]
      simp only [MAX_FILE_NAME_LEN, sizeof_dentry]
      exact ⟨by omega, by omega, fun w hw => (hle w hw).trans (Nat.le_add_right _ _)⟩
  · intro j' hj' k hk
    rw [sizeof_dentry] at hk hsrc
    rw [MAX_FILE_NAME_LEN]
    rw [List.length_append, List.length_singleton] at hj'
    rcases Nat.lt_succ_iff_lt_or_eq.mp hj' with hj | rfl
    · have hlow : dentryAt (data new) j' + 40 ≤ dst := by
        simp only [dst, dentryAt, sizeof_dentry]
        omega
      rw [List.getElem_append_left hj, byte_copyFrom_out _ _ _ (by omega),
        byte_put64_out _ _ (by rw [MAX_FILE_NAME_LEN]; omega)]
      exact h.bytes j' hj k hk
    · rw [List.getElem_append_right le_rfl]
      simp only [Nat.sub_self, List.getElem_cons_zero]
      show (M₁.copyFrom M₁ dst src 32).byte (dst + k) = m.byte (src + k)
      by_cases hk32 : k < 32
      · rw [byte_copyFrom _ _ _ hk32, byte_put64_out _ _ (by rw [MAX_FILE_NAME_LEN]; omega)]
        exact h.before (by omega)
      · rw [byte_copyFrom_out _ _ _ (by omega)]
        obtain ⟨b, rfl⟩ : ∃ b, k = 32 + b := ⟨k - 32, by omega⟩
        rw [← Nat.add_assoc, ← Nat.add_assoc]
        exact (byte_put64_u64 M M (by omega)).trans
          (h.before (by rw [MAX_FILE_NAME_LEN]; omega))

/-- **The copy loop** puts the kept dentries one after the other, and stores nothing else. -/
theorem copyDentries_spec (m : Mem) (is : List ℕ)
    (hsrc : ∀ i ∈ is, dentryAt (data old) i + sizeof_dentry ≤ data new) :
    let s := is.foldl (copyDentry old ino new) (m, 0)
    s.2 = (keptDentries m old ino is).length ∧
      DentriesCopied m s.1 old new (keptDentries m old ino is) := by
  induction is using List.reverseRecOn with
  | nil => exact ⟨rfl, DentriesCopied.nil m old new⟩
  | append_singleton is i ih =>
    have hi := hsrc i (by simp)
    obtain ⟨hcurr, hcopied⟩ := ih fun j hj => hsrc j (List.mem_append_left _ hj)
    rw [List.foldl_append, List.foldl_cons, List.foldl_nil]
    have hkept : keptDentries m old ino (is ++ [i]) = keptDentries m old ino is ++
        if dentryIno m (dentryAt (data old) i) = ino then [] else [i] := by
      rw [keptDentries, List.filter_append, List.filter_singleton]
      by_cases heq : dentryIno m (dentryAt (data old) i) = ino <;> simp [heq, keptDentries]
    have hread : ∀ M, DentriesCopied m M old new (keptDentries m old ino is) →
        dentryIno M (dentryAt (data old) i) = dentryIno m (dentryAt (data old) i) :=
      fun M hM => u64_congr fun b hb => hM.before (by
        simp only [MAX_FILE_NAME_LEN, sizeof_dentry] at hi ⊢
        omega)
    rw [copyDentry, hkept, hread _ hcopied]
    by_cases heq : dentryIno m (dentryAt (data old) i) = ino
    · rw [if_pos heq, if_pos heq, List.append_nil]
      exact ⟨hcurr, hcopied⟩
    · rw [if_neg heq, if_neg heq, List.length_append, List.length_singleton, hcurr]
      refine ⟨rfl, ?_⟩
      rw [← hread _ hcopied]
      exact hcopied.snoc hi

/-! ### A new version of a directory with names dropped -/

variable {parent : ℕ}

theorem dentry_end_le (hi : j < num_entries m parent) :
    dentryAt (data parent) j + sizeof_dentry ≤ nextEntry m parent := by
  have hn := num_entries_le m parent
  have hmul : sizeof_dentry * (j + 1) ≤ sizeof_dentry * num_entries m parent :=
    Nat.mul_le_mul_left _ hi
  simp only [dentryAt, data, nextEntry, Nat.mul_succ] at hmul ⊢
  omega

/-- The loop of `wfs_unlink` over all dentries of the parent. -/
theorem unlinkLoop_spec (ino : ℕ) (i : Inode) (hpar : nextEntry m parent ≤ head m) :
    let m₁ := putInode m (head m) i
    let s := (List.range (num_entries m parent)).foldl (copyDentry parent ino (head m)) (m₁, 0)
    DentriesCopied m₁ s.1 parent (head m) (keptDentries m parent ino (List.range (num_entries m parent))) ∧
      ∀ j, j < num_entries m parent → ∀ k, k < sizeof_dentry →
        m₁.byte (dentryAt (data parent) j + k) = m.byte (dentryAt (data parent) j + k) := by
  intro m₁ s
  have hsame : ∀ j, j < num_entries m parent → ∀ k, k < sizeof_dentry →
      m₁.byte (dentryAt (data parent) j + k) = m.byte (dentryAt (data parent) j + k) := by
    intro j hj k hk
    have hend := dentry_end_le hj
    exact putInode_byte_out (by omega)
  have hkept : keptDentries m₁ parent ino (List.range (num_entries m parent)) =
      keptDentries m parent ino (List.range (num_entries m parent)) := by
    refine List.filter_congr fun j hj => ?_
    rw [(dentry_copied (hsame j (List.mem_range.mp hj))).2.1]
  refine ⟨hkept ▸ (copyDentries_spec m₁ _ fun j hj => ?_).2, hsame⟩
  exact (dentry_end_le (List.mem_range.mp hj)).trans (hpar.trans (Nat.le_add_right _ _))

/-- Wherever the parent lies, the loop stores behind the new inode only. -/
theorem copyDentries_low (old ino new : ℕ) (m : Mem) (c : ℕ) (is : List ℕ) :
    ∃ ws, Writes m (is.foldl (copyDentry old ino new) (m, c)).1 ws ∧
      ∀ x, Covers ws x → data new ≤ x := by
  induction is using List.reverseRecOn with
  | nil => exact ⟨[], Writes.refl m, fun x hx => absurd hx (not_covers_nil x)⟩
  | append_singleton is i ih =>
    obtain ⟨ws, hws, hlow⟩ := ih
    rw [List.foldl_append, List.foldl_cons, List.foldl_nil, copyDentry]
    split
    · exact ⟨ws, hws, hlow⟩
    · refine ⟨_, (hws.put64 _ _).copyFrom _ _ _ _, fun x hx => ?_⟩
      rw [covers_cons, covers_cons] at hx
      simp only [dentryAt] at hx
      rcases hx with hx | hx | hx
      · omega
      · omega
      · exact hlow x hx

theorem appendUnlinked_head (parent ino : ℕ) (env : Env) (k sz : ℕ) (hsb : sizeof_sb ≤ head m) :
    head (appendUnlinked m parent ino (env.inode k S_IFDIR sz)) =
      (head m + sizeof_log_entry + sz % 2 ^ 32) % 2 ^ 32 := by
  obtain ⟨ws, hws, hlow⟩ := copyDentries_low parent ino (head m)
    (putInode m (head m) (env.inode k S_IFDIR sz)) 0 (List.range (num_entries m parent))
  exact freshEntry_head hsb hws hlow rfl

theorem appendUnlinked_fresh {env : Env} {k sz : ℕ} (hsb : sizeof_sb ≤ head m) (hk : k < 2 ^ 32)
    (hlt : head m + sizeof_log_entry + sz < 2 ^ 32) :
    FreshEntry m (appendUnlinked m parent ino (env.inode k S_IFDIR sz)) k S_IFDIR sz := by
  obtain ⟨ws, hws, hlow⟩ := copyDentries_low parent ino (head m)
    (putInode m (head m) (env.inode k S_IFDIR sz)) 0 (List.range (num_entries m parent))
  exact freshEntry hsb hk (by decide) hlt hws hlow rfl

theorem dents_filter (hd : DirOk m parent) :
    (dents m parent).filter (fun d => d.2 ≠ ino) =
      (keptDentries m parent ino (List.range (num_entries m parent))).map fun j =>
        (dentryName m (dentryAt (data parent) j), dentryIno m (dentryAt (data parent) j) % 2 ^ 32) := by
  rw [dents, List.filter_map, keptDentries]
  refine congrArg (List.map _) (List.filter_congr fun j hj => ?_)
  have hsmall := hd.small j (List.mem_range.mp hj)
  rw [Function.comp_apply, Nat.mod_eq_of_lt hsmall]

/-- **The new version of the parent** lists everything but the dropped number. -/
theorem appendUnlinked_appends (h : WellFormed m offs) (hp : parent ∈ offs)
    (hdir : S_ISDIR (mode m parent)) (env : Env) {k sz : ℕ} (hk : k < 2 ^ 32)
    (hlt : head m + sizeof_log_entry + sz < 2 ^ 32)
    (hsz : sz = sizeof_dentry * ((dents m parent).filter fun d => d.2 ≠ ino).length) :
    let m' := appendUnlinked m parent ino (env.inode k S_IFDIR sz)
    let r := version m' (head m)
    Appends m m' offs r ∧ r.ino = k ∧ r.live ∧ r.val.1.size = sz ∧ r.val.1.mode = S_IFDIR ∧
      r.node = .dir ((dents m parent).filter fun d => d.2 ≠ ino) := by
  intro m' r
  have hpd := h.dirs parent hp hdir
  have hsb := h.sb_le
  obtain ⟨hloop, hsame⟩ :=
    unlinkLoop_spec ino (env.inode k S_IFDIR sz) (h.bounds hp).2
  have hf : FreshEntry m m' k S_IFDIR sz := appendUnlinked_fresh hsb hk hlt
  set kept := keptDentries m parent ino (List.range (num_entries m parent)) with hkept
  have hlen : ((dents m parent).filter fun d => d.2 ≠ ino).length = kept.length := by
    rw [dents_filter hpd, List.length_map]
  have hnum : num_entries m' (head m) = kept.length := by
    rw [num_entries, hf.size_eq, hsz, hlen, Nat.mul_div_cancel_left _ (by decide)]
  have hmem : ∀ j (hj : j < kept.length), kept[j] < num_entries m parent := fun j hj =>
    List.mem_range.mp (List.mem_of_mem_filter (List.getElem_mem hj))
  have hcopy : ∀ j (hj : j < kept.length), ∀ b, b < sizeof_dentry →
      m'.byte (dentryAt (data (head m)) j + b) = m.byte (dentryAt (data parent) kept[j] + b) := by
    intro j hj b hb
    rw [← hsame _ (hmem j hj) b hb, ← hloop.bytes j hj b hb]
    rw [sizeof_sb] at hsb
    exact byte_put32_out _ _ (by rw [dentryAt, data]; omega)
  have hdents : dents m' (head m) = (dents m parent).filter fun d => d.2 ≠ ino := by
    rw [dents, hnum, dents_filter hpd, ← hkept]
    refine List.ext_getElem (by simp) fun j hj _ => ?_
    rw [List.length_map, List.length_range] at hj
    obtain ⟨hname, hino, -⟩ := dentry_copied (hcopy j hj)
    rw [List.getElem_map, List.getElem_map, List.getElem_range, hname, hino]
  have hdok : DirOk m' (head m) := by
    refine ⟨by rw [hf.size_eq, hsz]; exact dvd_mul_right _ _, fun j hj => ?_, fun j hj => ?_⟩
    · rw [hnum] at hj
      rw [(dentry_copied (hcopy j hj)).2.2]
      exact hpd.ended _ (hmem j hj)
    · rw [hnum] at hj
      rw [(dentry_copied (hcopy j hj)).2.1]
      exact hpd.small _ (hmem j hj)
  rw [← hdents]
  exact hf.appends h fun _ => hdok

/-- The new version is stored completely when the loop drops as many dentries as its size says. -/
theorem appendUnlinked_filled (h : WellFormed m offs) (hp : parent ∈ offs)
    (hdir : S_ISDIR (mode m parent)) (env : Env) {k sz : ℕ} (hk : k < 2 ^ 32)
    (hlt : head m + sizeof_log_entry + sz < 2 ^ 32)
    (hsz : sz = sizeof_dentry * ((dents m parent).filter fun d => d.2 ≠ ino).length) :
    Filled m (appendUnlinked m parent ino (env.inode k S_IFDIR sz)) := by
  have hsb := h.sb_le
  have hf : FreshEntry m (appendUnlinked m parent ino (env.inode k S_IFDIR sz)) k S_IFDIR sz :=
    appendUnlinked_fresh hsb hk hlt
  obtain ⟨ws, hws, hcov, hle⟩ :=
    (unlinkLoop_spec ino (env.inode k S_IFDIR sz) (h.bounds hp).2).1.writes
  have hend : dentryAt (data (head m))
      (keptDentries m parent ino (List.range (num_entries m parent))).length =
        head m + sizeof_log_entry + sz := by
    rw [hsz, dents_filter (h.dirs parent hp hdir), List.length_map]
    rfl
  rw [hend] at hcov hle
  refine ⟨_, ((putInode_writes m (head m) _).trans hws).put32 _ _, ?_⟩
  rw [hf.head_eq]
  refine ⟨fun x hx₁ hx₂ => ?_, ?_⟩
  · rw [covers_cons, Covers.append, hcov, covers_inodeFields, data]
    omega
  · rw [List.forall_mem_cons]
    refine ⟨by simp only [sizeof_sb] at hsb ⊢; omega, fun w hw => ?_⟩
    rcases List.mem_append.mp hw with hw | hw
    · exact hle w hw
    · have := inodeFields_le w hw
      omega

end OperatingSystems.Wfs
