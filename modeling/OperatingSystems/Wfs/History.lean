import OperatingSystems.Wfs.Reserved

/-!
# History is never overwritten

Every writer stores at the head, and the only stores below it are those of `wfs_unlink` to the `deleted`
fields of the inode that it removes.  This needs nothing of the log but that its entries tile.

* **`history_kept`** — whatever a request returns, the bytes below the old head are as they were, up to
  these fields, and the latest entries of all other inodes stay where they are.
* `unlink_marks_special_file` — a path that resolves to neither a directory nor a regular file is unlinked
  as well.
-/

namespace OperatingSystems.Wfs

open OperatingSystems.ByteMemory OperatingSystems.ByteMemory.Mem OperatingSystems.BoundedLoop

/-- A call of one of the seven operations. -/
inductive Request
  | getattr (path : Str)
  | mknod (env : Env) (path : Str)
  | mkdir (env : Env) (path : Str)
  | read (path : Str) (bufsize offset : ℕ)
  | write (env : Env) (path : Str) (buffer : List UInt8) (offset : ℕ)
  | readdir (path : Str)
  | unlink (env : Env) (path : Str)

/-- The image after a request: the three reading operations have no image to return. -/
def Request.after (im : Image) : Request → Image
  | .getattr _ | .read _ _ _ | .readdir _ => im
  | .mknod env path => (wfs_mknod env im path).2
  | .mkdir env path => (wfs_mkdir env im path).2
  | .write env path buffer offset => (wfs_write env im path buffer offset).2
  | .unlink env path => (wfs_unlink env im path).2

/-- The inode that a request removes: an unlink that gets past its two lookups. -/
def Request.Unlinks (im : Image) : Request → ℕ → Prop
  | .unlink _ path, i => ∃ e q, find_log_entry_by_path im.mem path = some e ∧ ¬S_ISDIR (mode im.mem e) ∧
      find_log_entry_by_path im.mem (separate_path_and_file path).parent_path = some q ∧
      inode_number im.mem e = i
  | _, _ => False

/-- Writes end on the disk. -/
def Request.OnDisk (im : Image) : Request → Prop
  | .write _ _ buffer offset => offset + buffer.length ≤ im.disk_size
  | _ => True

/-- The bytes of the log of `m`, whose entries are at `offs`, are the same in `m'`, up to the `deleted`
fields of the live entries of the removed inode. -/
def LogKept (m m' : Mem) (offs : List ℕ) (removed : ℕ → Prop) : Prop :=
  ∀ x, sizeof_sb ≤ x → x < head m →
    (∀ o ∈ offs, removed (inode_number m o) → deleted m o = 0 → x < o + 4 ∨ o + 8 ≤ x) →
    m'.byte x = m.byte x

/-- The latest entry of inode `j` is the same in `m'` as in `m`, with the same bytes. -/
def SameLatest (m m' : Mem) (j : ℕ) : Prop :=
  find_latest_log_entry m' j = find_latest_log_entry m j ∧
    ∀ e, find_latest_log_entry m j = some e → ∀ x, e ≤ x → x < nextEntry m e → m'.byte x = m.byte x

/-- The log of `m`, whose entries are at `offs`, is kept in `m'` but for the removed inode. -/
structure HistoryKept (m m' : Mem) (offs : List ℕ) (removed : ℕ → Prop) : Prop where
  /-- Below the head only `deleted` fields of live entries of the removed inode are stored to. -/
  frame : LogKept m m' offs removed
  /-- They are set to one. -/
  marked : ∀ o ∈ offs, removed (inode_number m o) → deleted m o = 0 → deleted m' o = 1
  /-- The latest entries of the other inodes that got no new entry are the same, with the same bytes. -/
  latest : ∃ new, Visits m' (offs ++ new) ∧ (∀ o ∈ new, head m ≤ o) ∧
    ∀ j, ¬removed j → (∀ o ∈ new, inode_number m' o ≠ j) → SameLatest m m' j

variable {m m₁ m' : Mem} {offs new : List ℕ} {e i o : ℕ} {im : Image} {path : Str} {removed : ℕ → Prop}

/-! ### What follows from the bytes -/

theorem LogKept.of_keep (hkeep : ∀ x, sizeof_sb ≤ x → x < head m → m'.byte x = m.byte x) :
    LogKept m m' offs removed :=
  fun x hx₁ hx₂ _ => hkeep x hx₁ hx₂

/-- The `deleted` field of another entry does not reach into an entry. -/
theorem deleted_apart (h : Tiles m offs) {x : ℕ} (ho : o ∈ offs) (he : e ∈ offs) (hne : o ≠ e)
    (hx : e ≤ x) (hx' : x < nextEntry m e) : x < o + 4 ∨ o + 8 ≤ x := by
  rcases lt_or_gt_of_ne hne with hlt | hlt
  · have hnext := h.next_le (lt_nextEntry m) ho he hlt
    rw [nextEntry, sizeof_log_entry] at hnext
    omega
  · have hnext := h.next_le (lt_nextEntry m) he ho hlt
    omega

/-- A field of an entry other than `deleted` is kept. -/
theorem field_kept (h : Tiles m offs) (hframe : LogKept m m' offs removed) (he : e ∈ offs) {k : ℕ}
    (hk : k = 0 ∨ 8 ≤ k) (hk' : k + 4 ≤ sizeof_log_entry) : m'.u32 (e + k) = m.u32 (e + k) := by
  obtain ⟨hlow, hhigh⟩ := h.bounds (lt_nextEntry m) e he
  refine u32_congr fun b hb => hframe _ (by omega) ?_ ?_
  · rw [nextEntry] at hhigh
    omega
  · intro o ho _ _
    by_cases hoe : o = e
    · omega
    · refine deleted_apart h ho he hoe (by omega) ?_
      rw [nextEntry]
      omega

theorem nextEntry_kept (h : Tiles m offs) (hframe : LogKept m m' offs removed) (he : e ∈ offs) :
    nextEntry m' e = nextEntry m e := by
  rw [nextEntry, nextEntry, size, size, field_kept h hframe he (by omega) (by decide)]

/-- **The latest entries follow from the frame.** -/
theorem latest_kept (h : Tiles m offs) (hframe : LogKept m m' offs removed)
    (hvisits : Visits m' (offs ++ new)) {j : ℕ} (hj : ¬removed j)
    (hother : ∀ o ∈ new, inode_number m' o ≠ j) : SameLatest m m' j := by
  have hentry : ∀ e ∈ offs, inode_number m e = j → ∀ x, e ≤ x → x < nextEntry m e →
      m'.byte x = m.byte x := by
    intro e he hej x hx₁ hx₂
    obtain ⟨hlow, hhigh⟩ := h.bounds (lt_nextEntry m) e he
    refine hframe x (by omega) (by omega) fun o ho hr _ => ?_
    refine deleted_apart h ho he ?_ hx₁ hx₂
    rintro rfl
    exact hj (hej ▸ hr)
  have hlive : ∀ e ∈ offs, isLive m' j e = isLive m j e := by
    intro e he
    have hino : inode_number m' e = inode_number m e :=
      field_kept h hframe he (k := 0) (by omega) (by decide)
    rw [isLive, isLive, hino]
    by_cases hej : inode_number m e = j
    · have hdel : deleted m' e = deleted m e := by
        refine u32_congr fun b hb => hentry e he hej _ (by omega) ?_
        rw [nextEntry, sizeof_log_entry]
        omega
      rw [hdel]
    · rw [beq_eq_false_iff_ne.mpr hej, Bool.false_and, Bool.false_and]
  have hdead : new.filter (isLive m' j) = [] := by
    refine List.filter_eq_nil_iff.mpr fun o ho => ?_
    rw [isLive, beq_eq_false_iff_ne.mpr (hother o ho), Bool.false_and]
    exact Bool.false_ne_true
  refine ⟨?_, fun e he x => ?_⟩
  · rw [find_latest_visits hvisits, find_latest_visits h.visits, List.filter_append, hdead,
      List.append_nil, List.filter_congr hlive]
  · rw [find_latest_visits h.visits] at he
    obtain ⟨he, hl⟩ := List.mem_filter.mp (List.mem_of_getLast? he)
    rw [isLive, Bool.and_eq_true, beq_iff_eq] at hl
    exact hentry e he hl.1 x

/-- The history is kept when the frame is. -/
theorem HistoryKept.of_frame (h : Tiles m offs) (hframe : LogKept m m' offs removed)
    (hmarked : ∀ o ∈ offs, removed (inode_number m o) → deleted m o = 0 → deleted m' o = 1)
    (hvisits : Visits m' (offs ++ new)) (hnew : ∀ o ∈ new, head m ≤ o) :
    HistoryKept m m' offs removed :=
  ⟨hframe, hmarked, new, hvisits, hnew, fun _ hj hother => latest_kept h hframe hvisits hj hother⟩

/-- Memories that agree below the head of the first. -/
theorem HistoryKept.of_keep (h : Tiles m offs)
    (hkeep : ∀ x, sizeof_sb ≤ x → x < head m → m'.byte x = m.byte x) (hvisits : Visits m' (offs ++ new))
    (hnew : ∀ o ∈ new, head m ≤ o) : HistoryKept m m' offs fun _ => False :=
  .of_frame h (.of_keep hkeep) (fun _ _ hr => hr.elim) hvisits hnew

theorem HistoryKept.refl (h : Tiles m offs) : HistoryKept m m offs fun _ => False := by
  have hvisits : Visits m (offs ++ []) := by
    rw [List.append_nil]
    exact h.visits
  exact .of_keep h (fun _ _ _ => rfl) hvisits (by simp)

/-! ### The new entries -/

/-- One more entry at the head, which may overlap the new head. -/
theorem visits_snoc (h : Tiles m offs) (hnext : ∀ o ∈ offs, nextEntry m' o = nextEntry m o)
    (hlt : head m < head m') (hle : head m' ≤ nextEntry m' (head m)) : Visits m' (offs ++ [head m]) := by
  refine ⟨nextEntry m' (head m), (Chain.congr h hnext).snoc, hle, fun o ho => ?_⟩
  rcases List.mem_append.mp ho with ho | ho
  · have := (h.bounds (lt_nextEntry m) o ho).2
    have := lt_nextEntry m o
    omega
  · rw [List.mem_singleton.mp ho]
    exact hlt

theorem tiles_snoc (h : Tiles m offs) (hkeep : ∀ x, sizeof_sb ≤ x → x < head m → m'.byte x = m.byte x)
    (hhead : head m' = nextEntry m' (head m)) : Tiles m' (offs ++ [head m]) := by
  rw [Tiles, hhead]
  have hframe : LogKept m m' offs fun _ => False := .of_keep hkeep
  exact (Chain.congr h fun o ho => nextEntry_kept h hframe ho).snoc

/-- A fresh entry without overflow tiles. -/
theorem FreshEntry.tiles {k md sz : ℕ} (hf : FreshEntry m m' k md sz) (h : Tiles m offs) :
    Tiles m' (offs ++ [head m]) :=
  tiles_snoc h hf.keep (by rw [nextEntry, hf.size_eq, hf.head_eq])

/-- The new version of a parent tiles, whatever the old one holds. -/
theorem appendParent_tiles (h : Tiles m offs) (parent : ℕ) (f : Str) (ino : ℕ)
    (hlt : head m + sizeof_log_entry + (size m parent + sizeof_dentry) < 2 ^ 32) :
    Tiles (appendParent m parent f ino) (offs ++ [head m]) ∧
      ∀ x, sizeof_sb ≤ x → x < head m → (appendParent m parent f ino).byte x = m.byte x := by
  have hsb : sizeof_sb ≤ head m := h.le (lt_nextEntry m)
  have hhead := appendParent_head parent f ino hsb hlt
  have heq := appendParent_eq parent f ino hsb (by omega)
  have hkeep : ∀ x, sizeof_sb ≤ x → x < head m → (appendParent m parent f ino).byte x = m.byte x := by
    intro x hx₁ hx₂
    rw [sizeof_sb] at hx₁ hsb
    rw [heq]
    simp only [putHead, dentryAt, data, sizeof_log_entry]
    rw [byte_put32_out _ _ (by omega), byte_put32_out _ _ (by omega), byte_put64_out _ _ (by omega),
      byte_putBytes_out _ _ (by omega), byte_copyFrom_out _ _ _ (by omega)]
  have hsize : size (appendParent m parent f ino) (head m) = size m parent + sizeof_dentry := by
    rw [sizeof_sb] at hsb
    rw [heq, size, putHead, u32_put32_out _ _ (by omega), u32_put32, Nat.mod_eq_of_lt (by omega)]
  exact ⟨tiles_snoc h hkeep (by rw [nextEntry, hsize, hhead]), hkeep⟩

/-! ### The requests -/

theorem createEntry_history (h : Tiles im.mem offs) {type : ℕ} (htype : type < 2 ^ 32) (env : Env)
    (path : Str) : HistoryKept im.mem (createEntry type env im path).2.mem offs fun _ => False := by
  have hds := im.disk_size_lt
  unfold createEntry
  cases find_log_entry_by_path im.mem path with
  | some e => exact .refl h
  | none =>
    simp only
    cases find_log_entry_by_path im.mem (separate_path_and_file path).parent_path with
    | none => exact .refl h
    | some q =>
      simp only
      split
      · exact .refl h
      · rename_i hroom
        obtain ⟨htiles₁, hkeep₁⟩ := appendParent_tiles h q (separate_path_and_file path).filename
          (newInodeNumber im.mem) (by omega)
        have hle₁ := htiles₁.bounds (lt_nextEntry _) (head im.mem) (by simp)
        have hlt₁ := lt_nextEntry (appendParent im.mem q (separate_path_and_file path).filename
          (newInodeNumber im.mem)) (head im.mem)
        split
        · exact .of_keep h hkeep₁ htiles₁.visits (by simp)
        · rename_i hroom₁
          have hk : newInodeNumber im.mem < 2 ^ 32 := Nat.mod_lt _ (by decide)
          have hfresh := appendEmpty_fresh env (hle₁.1.trans (by omega)) hk htype (by omega :
            head (appendParent im.mem q (separate_path_and_file path).filename (newInodeNumber im.mem)) +
              sizeof_log_entry < 2 ^ 32)
          have hvisits := (hfresh.tiles htiles₁).visits
          rw [List.append_assoc] at hvisits
          refine .of_keep h (fun x hx₁ hx₂ => ?_) hvisits ?_
          · exact (hfresh.keep x hx₁ (by omega)).trans (hkeep₁ x hx₁ hx₂)
          · intro o ho
            rw [List.singleton_append, List.mem_cons, List.mem_singleton] at ho
            omega

theorem wfs_write_history (h : Tiles im.mem offs) (hhead : head im.mem ≤ im.disk_size) (env : Env)
    (path : Str) {buffer : List UInt8} {offset : ℕ} (hend : offset + buffer.length ≤ im.disk_size) :
    HistoryKept im.mem (wfs_write env im path buffer offset).2.mem offs fun _ => False := by
  have hlast : offset + buffer.length < 2 ^ 31 := hend.trans_lt im.disk_size_lt
  rcases wfs_write_small h env path hlast hhead with ⟨err, heq⟩ | ⟨e, -, -, hfresh, heq⟩
  · rw [heq]
    exact .refl h
  · rw [heq]
    exact .of_keep h hfresh.keep (hfresh.tiles h).visits (by simp)

/-- The walk of `delete_log_entries` keeps the log but for the inode. -/
theorem delete_logKept (h : Tiles m offs) (hi : removed i) :
    LogKept m (delete_log_entries m i).1 offs removed := by
  intro x _ _ hx
  refine (delete_log_entries_marked h.visits i).1.frame x fun o ho hl => ?_
  rw [isLive, Bool.and_eq_true, beq_iff_eq, beq_iff_eq] at hl
  exact hx o ho (hl.1.symm ▸ hi) hl.2

theorem delete_marks (h : Tiles m offs) (ho : o ∈ offs) (hino : inode_number m o = i)
    (hdel : deleted m o = 0) : deleted (delete_log_entries m i).1 o = 1 := by
  have hset := (delete_log_entries_marked h.visits i).1.set o ho (by
    rw [isLive, Bool.and_eq_true, beq_iff_eq, beq_iff_eq]
    exact ⟨hino, hdel⟩)
  rw [deleted, u32, leNat_congr hset, leNat_leByte]
  rfl

theorem wfs_unlink_history (h : Tiles im.mem offs) (env : Env) (path : Str) :
    HistoryKept im.mem (wfs_unlink env im path).2.mem offs (Request.Unlinks im (.unlink env path)) := by
  have hds := im.disk_size_lt
  have hsb : sizeof_sb ≤ head im.mem := h.le (lt_nextEntry _)
  have hsame : (∀ i, ¬Request.Unlinks im (.unlink env path) i) →
      HistoryKept im.mem im.mem offs (Request.Unlinks im (.unlink env path)) := by
    intro hnone
    have hvisits : Visits im.mem (offs ++ []) := by
      rw [List.append_nil]
      exact h.visits
    exact .of_frame h (.of_keep fun _ _ _ => rfl) (fun o _ hr => absurd hr (hnone _)) hvisits (by simp)
  unfold wfs_unlink
  cases hfind : find_log_entry_by_path im.mem path with
  | none =>
    refine hsame fun i hunlinks => ?_
    obtain ⟨e, q, he, -⟩ := hunlinks
    rw [hfind] at he
    cases he
  | some e =>
    simp only
    split
    · rename_i hdir
      refine hsame fun i hunlinks => ?_
      obtain ⟨e', q, he, hnot, -⟩ := hunlinks
      apply hnot
      obtain rfl : e = e' := Option.some.inj (hfind.symm.trans he)
      exact hdir
    rename_i hfile
    cases hpar : find_log_entry_by_path im.mem (separate_path_and_file path).parent_path with
    | none =>
      refine hsame fun i hunlinks => ?_
      obtain ⟨e', q, -, -, hq, -⟩ := hunlinks
      rw [hpar] at hq
      cases hq
    | some q =>
      have hi : Request.Unlinks im (.unlink env path) (inode_number im.mem e) :=
        ⟨e, q, hfind, hfile, hpar, rfl⟩
      have hother : ∀ j, Request.Unlinks im (.unlink env path) j → j = inode_number im.mem e := by
        rintro j ⟨e', -, he, -, -, rfl⟩
        rw [Option.some.inj (hfind.symm.trans he)]
      have hkept := delete_logKept h hi
      have hmarks := fun o ho hr hdel => delete_marks h ho (hother (inode_number im.mem o) hr) hdel
      have hhead := delete_head im.mem (inode_number im.mem e)
      simp only
      generalize (delete_log_entries im.mem (inode_number im.mem e)) = s at *
      obtain ⟨m₁, flag⟩ := s
      simp only at hkept hmarks hhead ⊢
      split
      · have hvisits : Visits m₁ (offs ++ []) := by
          rw [List.append_nil]
          obtain ⟨b, hc, hb, hlt⟩ := h.visits
          exact ⟨b, hc.congr fun o ho => nextEntry_kept h hkept ho, hhead ▸ hb, hhead ▸ hlt⟩
        exact .of_frame h hkept hmarks hvisits (by simp)
      · rename_i hroom
        have hnum : num_entries m₁ q ≤ 2 ^ 32 / 40 := Nat.div_le_div_right (u32_lt _ _).le
        obtain ⟨-, hsize, hhead₂, hkeep⟩ := @appendUnlinked_cut m₁ env (inode_number m₁ q)
          (unlinkSize (num_entries m₁ q) % 2 ^ 32) q (inode_number m₁ e) (hhead ▸ hsb)
        rw [Nat.mod_mod] at hsize hhead₂
        obtain ⟨hlow, -⟩ := unlink_head (head_lt m₁) hnum hds (not_lt.mp hroom)
        rw [← hhead₂, hhead] at hlow
        rw [hhead] at hsize hhead₂ hkeep
        have hkept₂ : LogKept im.mem (appendUnlinked m₁ q (inode_number m₁ e)
            (env.inode (inode_number m₁ q) S_IFDIR (unlinkSize (num_entries m₁ q) % 2 ^ 32))) offs
            (Request.Unlinks im (.unlink env path)) :=
          fun x hx₁ hx₂ hx => (hkeep x hx₁ hx₂).trans (hkept x hx₁ hx₂ hx)
        have hvisits : Visits (appendUnlinked m₁ q (inode_number m₁ e)
            (env.inode (inode_number m₁ q) S_IFDIR (unlinkSize (num_entries m₁ q) % 2 ^ 32)))
            (offs ++ [head im.mem]) := by
          refine visits_snoc h (fun o ho => nextEntry_kept h hkept₂ ho) hlow ?_
          rw [nextEntry, hsize, hhead₂]
          exact Nat.mod_le _ _
        refine .of_frame h hkept₂ (fun o ho hr hdel => ?_) hvisits (by simp)
        obtain ⟨hlo, hhi⟩ := h.bounds (lt_nextEntry _) o ho
        rw [← hmarks o ho hr hdel]
        refine u32_congr fun b hb => hkeep _ (by omega) ?_
        rw [nextEntry, sizeof_log_entry] at hhi
        omega

/-- **History is never overwritten**: whatever a request returns, it keeps the log but for the inode that
it unlinks, and a reading request changes no byte at all. -/
theorem history_kept (h : Tiles im.mem offs) (hhead : head im.mem ≤ im.disk_size) (r : Request)
    (hdisk : r.OnDisk im) : HistoryKept im.mem (r.after im).mem offs (r.Unlinks im) ∧
      ((r matches .getattr _ | .read _ _ _ | .readdir _) → ∀ x, (r.after im).mem.byte x = im.mem.byte x) := by
  cases r with
  | getattr path => exact ⟨.refl h, fun _ _ => rfl⟩
  | mknod env path => exact ⟨createEntry_history h (by decide) env path, fun hr => by cases hr⟩
  | mkdir env path => exact ⟨createEntry_history h (by decide) env path, fun hr => by cases hr⟩
  | read path bufsize offset => exact ⟨.refl h, fun _ _ => rfl⟩
  | write env path buffer offset => exact ⟨wfs_write_history h hhead env path hdisk, fun hr => by cases hr⟩
  | readdir path => exact ⟨.refl h, fun _ _ => rfl⟩
  | unlink env path => exact ⟨wfs_unlink_history h env path, fun hr => by cases hr⟩

/-- The disk with the file `/a/x`, whose mode says that it is a FIFO. -/
def diskFifo : Image := { diskAX with mem := diskAX.mem.put32 (264 + 8) 0x1000 }

theorem tiles_diskFifo : Tiles diskFifo.mem [8, 52, 136, 180, 264] := by
  have hhead : head diskFifo.mem = 308 := by decide +kernel
  rw [Tiles, hhead]
  refine .step (c := 52) ?_ (.step (c := 136) ?_ (.step (c := 180) ?_ (.step (c := 264) ?_
    (.step (c := 308) ?_ (.nil 308))))) <;> decide +kernel

/-- Unlinking the FIFO keeps its log but for the entries of inode `2`. -/
theorem history_kept_fifo : HistoryKept diskFifo.mem (Request.after diskFifo (.unlink env₀ pathAX.str)).mem
    [8, 52, 136, 180, 264] (Request.Unlinks diskFifo (.unlink env₀ pathAX.str)) :=
  (history_kept tiles_diskFifo (by decide +kernel) (.unlink env₀ pathAX.str) trivial).1

/-- **A special file is unlinked as well**: the path resolves to no regular file, and yet a byte below the
head changes. -/
theorem unlink_marks_special_file : ¬∀ (im : Image) (offs : List ℕ) (env : Env) (path : Str),
    Tiles im.mem offs → head im.mem ≤ im.disk_size → path.length < MAX_PATH_NAME_LEN →
      ∀ x, sizeof_sb ≤ x → x < head im.mem →
        (∀ o ∈ offs, (∃ e, find_log_entry_by_path im.mem path = some e ∧ S_ISREG (mode im.mem e) ∧
          inode_number im.mem o = inode_number im.mem e) → x < o + 4 ∨ o + 8 ≤ x) →
        (wfs_unlink env im path).2.mem.byte x = im.mem.byte x := by
  intro h
  have hfind : find_log_entry_by_path diskFifo.mem pathAX.str = some 264 := by decide +kernel
  have hbyte := h diskFifo _ env₀ pathAX.str tiles_diskFifo (by decide +kernel) (by decide) 268
    (by decide) (by decide +kernel) fun o _ ⟨e, he, hreg, _⟩ => by
      obtain rfl : 264 = e := Option.some.inj (hfind.symm.trans he)
      exact absurd hreg (by decide +kernel)
  exact absurd hbyte (by decide +kernel)

end OperatingSystems.Wfs
