import OperatingSystems.Lib.VersionRewrite
import OperatingSystems.Wfs.History

/-!
# Reading after writing

A write appends a whole new version of the file, so a read must find it again by a lookup of the same path
over the longer log, and every byte that the write does not store must be there already: the holes come
from the zeros behind the head.

* **`read_after_write`** — a read returns the bytes of the old content, extended with zeros and overlaid by
  the buffer (`overlay`), if the names in the log end in their fields.
* `write_hides_file` — a name that fills its field ends at the head, so the write to its file hides it.
-/

namespace OperatingSystems.Wfs

open OperatingSystems.ByteMemory OperatingSystems.ByteMemory.Mem OperatingSystems.VersionLog

/-- The content of a file after a write: extended with zeros up to the end of the buffer, which replaces the
bytes from `offset` on. -/
def overlay (content buffer : List UInt8) (offset : ℕ) : List UInt8 :=
  let extended := content ++ List.replicate (offset + buffer.length - content.length) 0
  extended.take offset ++ buffer ++ extended.drop (offset + buffer.length)

/-- Every path whose components are the first ones of `path`, but not all of them, resolves to a
directory. -/
def PrefixesAreDirs (m : Mem) (path : Str) : Prop :=
  ∀ q : Str, 0 ∉ q → tokens q <+: tokens path → tokens q ≠ tokens path →
    ∃ d, find_log_entry_by_path m q = some d ∧ S_ISDIR (mode m d)

variable {m m' : Mem} {offs : List ℕ} {e sz offset : ℕ} {im : Image} {path : Str} {buffer : List UInt8}

/-! ### Contents -/

theorem length_overlay (content buffer : List UInt8) (offset : ℕ) :
    (overlay content buffer offset).length = max content.length (offset + buffer.length) := by
  simp only [overlay, List.length_append, List.length_take, List.length_drop, List.length_replicate]
  omega

theorem getD_append_zeros (content : List UInt8) (n i : ℕ) :
    (content ++ List.replicate n 0).getD i 0 = content.getD i 0 := by
  by_cases hi : i < content.length
  · rw [List.getD_append _ _ _ _ hi]
  · rw [List.getD_append_right _ _ _ _ (not_lt.mp hi), List.getD_eq_default content _ (not_lt.mp hi)]
    rw [List.getD_eq_getElem?_getD, List.getElem?_replicate]
    split <;> rfl

/-- **A byte of the overlay** is one of the buffer or, outside of it, one of the extended content. -/
theorem getD_overlay (content buffer : List UInt8) (offset i : ℕ) :
    (overlay content buffer offset).getD i 0 =
      if offset ≤ i ∧ i < offset + buffer.length then buffer.getD (i - offset) 0 else content.getD i 0 := by
  have htake : ((content ++ List.replicate (offset + buffer.length - content.length) 0).take
      offset).length = offset := by
    rw [List.length_take, List.length_append, List.length_replicate]
    omega
  unfold overlay
  by_cases hlow : i < offset
  · rw [if_neg (by omega), List.getD_append _ _ _ _ (by rw [List.length_append, htake]; omega),
      List.getD_append _ _ _ _ (by rw [htake]; exact hlow), List.getD_eq_getElem?_getD,
      List.getElem?_take_of_lt hlow, ← List.getD_eq_getElem?_getD, getD_append_zeros]
  · by_cases hhigh : i < offset + buffer.length
    · rw [if_pos ⟨not_lt.mp hlow, hhigh⟩, List.getD_append _ _ _ _ (by rw [List.length_append, htake]; omega),
        List.getD_append_right _ _ _ _ (by rw [htake]; omega), htake]
    · rw [if_neg (by omega), List.getD_append_right _ _ _ _ (by rw [List.length_append, htake]; omega),
        List.length_append, htake, List.getD_eq_getElem?_getD, List.getElem?_drop,
        Nat.add_sub_cancel' (not_lt.mp hhigh), ← List.getD_eq_getElem?_getD, getD_append_zeros]

/-- The bytes of a memory are known by index. -/
theorem bytes_eq_of_getD {a n : ℕ} {xs : List UInt8} (hlen : xs.length = n)
    (h : ∀ i, i < n → m.byte (a + i) = xs.getD i 0) : m.bytes a n = xs := by
  refine List.ext_getElem (by rw [bytes_length, hlen]) fun i hi hi' => ?_
  rw [getElem_bytes, h i (hlen ▸ hi'), List.getD_eq_getElem _ _ hi']

/-- A part of the bytes from an address on. -/
theorem bytes_drop_take (m : Mem) (a n k j : ℕ) :
    ((m.bytes a n).drop k).take j = m.bytes (a + k) (min j (n - k)) := by
  refine List.ext_getElem (by simp [bytes_length]) fun i hi hi' => ?_
  rw [List.getElem_take, List.getElem_drop, getElem_bytes, getElem_bytes, Nat.add_assoc]

/-- **The data of the new version** are the overlay. -/
theorem appendFile_data {env : Env} {k old : ℕ} (hsb : sizeof_sb ≤ head m) (hold : nextEntry m old ≤ head m)
    (hzero : ∀ x, data (head m) ≤ x → x < data (head m) + max (size m old) (offset + buffer.length) →
      m.byte x = 0) :
    (appendFile m old (env.inode k S_IFREG sz) buffer offset).bytes (data (head m))
        (max (size m old) (offset + buffer.length)) =
      overlay (m.bytes (data old) (size m old)) buffer offset := by
  have hsize : size (putInode m (head m) (env.inode k S_IFREG sz)) old = size m old := by
    refine u32_congr fun b hb => putInode_byte_out ?_
    rw [nextEntry, sizeof_log_entry] at hold
    omega
  refine bytes_eq_of_getD (by rw [length_overlay, bytes_length]) fun i hi => ?_
  rw [getD_overlay]
  rw [sizeof_sb] at hsb
  rw [nextEntry, sizeof_log_entry] at hold
  simp only [appendFile, putHead, hsize]
  rw [byte_put32_out _ _ (by rw [data]; omega)]
  split
  · rename_i hbuf
    rw [putBytes, store_byte_in _ _ (by omega) (by omega)]
    congr 1
    omega
  · rename_i hbuf
    rw [byte_putBytes_out _ _ (by omega)]
    by_cases hlt : i < size m old
    · rw [byte_copyFrom _ _ _ hlt, putInode_byte_out (by rw [data, sizeof_log_entry]; omega),
        List.getD_eq_getElem _ _ (by rw [bytes_length]; exact hlt), getElem_bytes]
    · rw [byte_copyFrom_out _ _ _ (by omega),
        putInode_byte_out (by rw [data, sizeof_log_entry]; omega), hzero _ (by omega) (by omega),
        List.getD_eq_default _ _ (by rw [bytes_length]; omega)]

/-! ### The lookup of the new version -/

/-- **A new version of a file** leaves the log readable and is one more record of it. -/
theorem FreshEntry.readable {k : ℕ} (hf : FreshEntry m m' k S_IFREG sz) (h : Readable m offs) :
    Readable m' (offs ++ [head m]) ∧ log m' = log m ++ [version m' (head m)] := by
  have htiles := hf.tiles h.tiles
  have hcopy : ∀ o ∈ offs, Copied m m' o o := by
    intro o ho i hi
    obtain ⟨hlow, hhigh⟩ := h.tiles.bounds (lt_nextEntry m) o ho
    rw [nextEntry] at hhigh
    exact hf.keep _ (by omega) (by omega)
  refine ⟨⟨htiles, fun o ho hd i hi => ?_⟩, ?_⟩
  · rcases List.mem_append.mp ho with ho | ho
    · have hc := hcopy o ho
      rw [hc.mode] at hd
      rw [hc.num_entries] at hi
      obtain ⟨b, hb, hz⟩ := h.ended o ho hd i hi
      exact ⟨b, hb, by rw [hc.dentry_byte hi b (hb.trans (by decide)), hz]⟩
    · rw [List.mem_singleton.mp ho, hf.mode_eq] at hd
      exact absurd hd (by decide)
  · rw [log_eq htiles, log_eq h.tiles, List.map_append, List.map_singleton]
    congr 1
    exact List.map_congr_left fun o ho => (hcopy o ho).version

/-- A lookup does not go on from a file when the first components lead to directories. -/
theorem passes_of_prefixes (h : Readable m offs) (hp : 0 ∉ path) (hdirs : PrefixesAreDirs m path)
    (hlast : latest (log m) (inode_number m e) = some (version m e)) (hreg : S_ISREG (mode m e)) :
    Passes (log m) (inode_number m sizeof_sb) (inode_number m e) (tokens path) := by
  intro xs y ys d hxs hne hd hino
  obtain ⟨q, hq, rfl⟩ := exists_prefix_path hp ⟨y :: ys, hxs.symm⟩
  obtain ⟨e', he', hdir⟩ := hdirs q hq ⟨y :: ys, hxs.symm⟩ fun heq => by
    rw [heq] at hxs
    have := congrArg List.length hxs
    rw [List.length_append, List.length_cons] at this
    omega
  obtain ⟨-, hlook, -⟩ := h.found hq he'
  obtain rfl : version m e' = d := Option.some.inj (hlook.symm.trans hd)
  have hlast' := latest_of_lookup hd
  rw [hino, hlast] at hlast'
  have hmode : mode m e = mode m e' :=
    congrArg (fun r : Version => r.val.1.mode) (Option.some.inj hlast')
  exact absurd (hmode ▸ hdir) (not_isDir_of_isReg hreg)

/-- **The path leads to the new version.** -/
theorem find_path_written {k : ℕ} (hf : FreshEntry m m' k S_IFREG sz) (h : Readable m offs) (hp : 0 ∉ path)
    (hfind : find_log_entry_by_path m path = some e) (hreg : S_ISREG (mode m e))
    (hk : k = inode_number m e) (hdirs : PrefixesAreDirs m path) (hne : tokens path ≠ []) :
    find_log_entry_by_path m' path = some (head m) := by
  obtain ⟨hread, hlog⟩ := hf.readable h
  obtain ⟨he, hlook, hlast⟩ := h.found hp hfind
  have hfirst : inode_number m' sizeof_sb = inode_number m sizeof_sb := by
    have hbound := h.tiles.bounds (lt_nextEntry m) e he
    refine u32_congr fun b hb => hf.keep _ (by omega) ?_
    have hnext := hbound.2
    rw [nextEntry, sizeof_log_entry] at hnext
    omega
  have hpos : ∀ r ∈ log m, r.pos < (version m' (head m)).pos := by
    intro r hr
    exact (lt_nextEntry m r.pos).trans_le
      (h.tiles.bounds (lt_nextEntry m) r.pos ((mem_log h.tiles).mp hr).1).2
  have hlive : (version m' (head m)).live := by
    show (deleted m' (head m) == 0) = true
    rw [hf.deleted_eq]
    rfl
  have hino : (version m' (head m)).ino = inode_number m e := hf.ino_eq.trans hk
  have hnode : (version m e).node = .file := if_neg (not_isDir_of_isReg hreg)
  rw [← hino] at hlast
  have hrw := Rewrite.snocFile hpos hlive hlast hnode
  rw [hino, ← hlog] at hrw
  rw [hino] at hlast
  rw [find_path_readable hread hp, hfirst, hrw.lookup (log_sorted h.tiles) hne (fun _ _ _ _ _ _ => trivial)
    (passes_of_prefixes h hp hdirs hlast hreg) hlook]
  show (latest (log m') (inode_number m e)).map Rec.pos = some (head m)
  rw [hrw.new]
  rfl

/-- The first entry of a log that is not empty. -/
theorem mem_first (h : Tiles m offs) (he : e ∈ offs) : sizeof_sb ∈ offs := by
  rw [Tiles] at h
  generalize sizeof_sb = a at h ⊢
  generalize head m = b at h
  cases h with
  | nil => cases he
  | cons => exact List.mem_cons_self

/-! ### Reading -/

/-- What a read returns of an entry. -/
theorem wfs_read_eq (hfind : find_log_entry_by_path im.mem path = some e) (hsize : size im.mem e < 2 ^ 31)
    (bufsize k : ℕ) : wfs_read im path bufsize k =
      .ok ((((im.mem.bytes (data e) (size im.mem e)).drop k).take bufsize).length,
        ((im.mem.bytes (data e) (size im.mem e)).drop k).take bufsize) := by
  unfold wfs_read
  rw [hfind, bytes_drop_take, bytes_length]
  simp only
  split
  · rename_i hend
    rw [Nat.sub_eq_zero_of_le hend, Nat.min_zero]
    rfl
  · have hmin : (if size im.mem e - k < bufsize then size im.mem e - k else bufsize) =
        min bufsize (size im.mem e - k) := by
      rw [min_def]
      split <;> split <;> omega
    rw [hmin, toInt, Nat.mod_eq_of_lt (by omega), if_pos (by omega)]

/-- **Reading after writing**: after a write that stores the whole buffer, each read returns its part of
the overlay, and the latest entries of all other inodes are as they were. -/
theorem read_after_write (h : Readable im.mem offs) (hhead : head im.mem ≤ im.disk_size)
    (hzero : ∀ x, head im.mem ≤ x → x < im.disk_size → im.mem.byte x = 0) (env : Env) (hp : 0 ∉ path)
    (hfind : find_log_entry_by_path im.mem path = some e) (hreg : S_ISREG (mode im.mem e))
    (hdirs : PrefixesAreDirs im.mem path) (hroot : S_ISDIR (mode im.mem sizeof_sb))
    (hmodes : ∀ o ∈ offs, ∀ o' ∈ offs, inode_number im.mem o = inode_number im.mem o' →
      mode im.mem o = mode im.mem o')
    (hend : offset + buffer.length ≤ im.disk_size)
    (hok : (wfs_write env im path buffer offset).1 = .ok buffer.length) :
    let im' := (wfs_write env im path buffer offset).2
    let content := overlay (im.mem.bytes (data e) (size im.mem e)) buffer offset
    (∀ n k, wfs_read im' path n k = .ok (((content.drop k).take n).length, (content.drop k).take n)) ∧
      ∀ j, j ≠ inode_number im.mem e → SameLatest im.mem im'.mem j := by
  have hne : tokens path ≠ [] := by
    intro hnil
    obtain ⟨he, hlook, -⟩ := h.found hp hfind
    rw [hnil] at hlook
    have hino : inode_number im.mem e = inode_number im.mem sizeof_sb := (mem_of_latest hlook).2.2
    exact not_isDir_of_isReg hreg (hmodes _ (mem_first h.tiles he) _ he hino.symm ▸ hroot)
  rcases wfs_write_small h.tiles env path (hend.trans_lt im.disk_size_lt) hhead with
    ⟨err, heq⟩ | ⟨e', hfind', hroom, hfresh, heq⟩
  · rw [heq] at hok
    cases hok
  obtain rfl : e = e' := Option.some.inj (hfind.symm.trans hfind')
  have hds := im.disk_size_lt
  have hsb : sizeof_sb ≤ head im.mem := h.tiles.le (lt_nextEntry _)
  have hold := (h.tiles.bounds (lt_nextEntry _) e (h.found hp hfind).1).2
  have hwritten := find_path_written hfresh h hp hfind hreg rfl hdirs hne
  have hdata := @appendFile_data im.mem (max (size im.mem e) (offset + buffer.length)) offset buffer env
    (inode_number im.mem e) e hsb hold fun x hx₁ hx₂ => hzero x (by rw [data] at hx₁; omega) (by rw [data] at hx₂; omega)
  intro im' content
  have hmem : im'.mem = appendFile im.mem e (env.inode (inode_number im.mem e) S_IFREG
      (max (size im.mem e) (offset + buffer.length))) buffer offset :=
    congrArg (fun r => r.2.mem) heq
  rw [← hmem] at hwritten hdata hfresh
  have hsize := hfresh.size_eq
  refine ⟨fun n k => ?_, fun j hj => ?_⟩
  · rw [wfs_read_eq hwritten (by rw [hsize]; omega), hsize, hdata]
  · have hframe : LogKept im.mem im'.mem offs fun _ => False := .of_keep hfresh.keep
    refine latest_kept h.tiles hframe (hfresh.tiles h.tiles).visits id fun o ho => ?_
    rw [List.mem_singleton.mp ho, hfresh.ino_eq]
    exact hj.symm

/-! ### Examples of images -/

/-- The prefixes of a concrete path can be checked one by one. -/
theorem prefixesAreDirs_of_inits (h : ∀ xs ∈ (tokens path).inits, xs ≠ tokens path →
    tokens (xs.flatMap (slash :: ·)) = xs ∧
      (find_log_entry_by_path m (xs.flatMap (slash :: ·))).any fun d => S_ISDIR (mode m d)) :
    PrefixesAreDirs m path := by
  intro q _ hq hne
  obtain ⟨htok, hdir⟩ := h (tokens q) ((List.mem_inits _ _).mpr hq) hne
  have hfind : find_log_entry_by_path m q =
      find_log_entry_by_path m ((tokens q).flatMap (slash :: ·)) := by
    unfold find_log_entry_by_path
    rw [htok]
  rw [← hfind, Option.any_eq_true] at hdir
  exact hdir

theorem readable_diskAX : Readable diskAX.mem [8, 52, 136, 180, 264] :=
  ⟨tiles_diskAX, by decide +kernel⟩

/-- Two bytes written at offset `3` of the empty file `/a/x` read back behind three zeros. -/
theorem read_after_write_hole :
    wfs_read (wfs_write env₀ diskAX pathAX.str [7, 8] 3).2 pathAX.str 10 1 = .ok (4, [0, 0, 7, 8]) := by
  have hok : (wfs_write env₀ diskAX pathAX.str [7, 8] 3).1 = .ok [7, 8].length := by decide +kernel
  have hread := (read_after_write readable_diskAX (by decide +kernel)
    (by decide +kernel : ∀ x, head diskAX.mem ≤ x → x < diskAX.disk_size → diskAX.mem.byte x = 0) env₀
    pathAX.no_nul (by decide +kernel : find_log_entry_by_path diskAX.mem pathAX.str = some 264)
    (by decide +kernel) (prefixesAreDirs_of_inits (by decide +kernel)) (by decide +kernel)
    (by decide +kernel) (by decide +kernel) hok).1 10 1
  exact hread.trans (by decide +kernel)

/-- A name that fills its field and, with the number `0x0101010101010101`, the whole dentry. -/
def longName : Str := List.replicate 32 97 ++ List.replicate 8 1

/-- A disk whose root lists a file under that name in the last entry of the log. -/
def diskLong : Image where
  mem :=
    let m : Mem := ⟨fun _ => 0, []⟩
    let m := putInode (putHead (m.put32 0 WFS_MAGIC) 180) 8 (env₀.inode 0 S_IFDIR 0)
    let m := putInode m 52 (env₀.inode 0x01010101 S_IFREG 0)
    (putInode m 96 (env₀.inode 0 S_IFDIR 40)).putBytes 140 longName
  disk_size := 1000
  disk_size_lt := thousand_lt

/-- **A write hides its file**: the name ends at the first byte behind the log, where the write puts the
inode number. -/
theorem write_hides_file : ¬∀ (env : Env) (im : Image) (offs : List ℕ) (path : Str) (e : ℕ)
    (buffer : List UInt8) (offset : ℕ), Tiles im.mem offs → head im.mem ≤ im.disk_size →
      (∀ x, head im.mem ≤ x → x < im.disk_size → im.mem.byte x = 0) → S_ISDIR (mode im.mem sizeof_sb) →
      (∀ o ∈ offs, ∀ o' ∈ offs, inode_number im.mem o = inode_number im.mem o' →
        mode im.mem o = mode im.mem o') →
      path.length < MAX_PATH_NAME_LEN → 0 ∉ path → find_log_entry_by_path im.mem path = some e →
      S_ISREG (mode im.mem e) → PrefixesAreDirs im.mem path → offset + buffer.length ≤ im.disk_size →
      (wfs_write env im path buffer offset).1 = .ok buffer.length →
      ∀ n k, wfs_read (wfs_write env im path buffer offset).2 path n k =
        .ok ((((overlay (im.mem.bytes (data e) (size im.mem e)) buffer offset).drop k).take n).length,
          ((overlay (im.mem.bytes (data e) (size im.mem e)) buffer offset).drop k).take n) := by
  intro h
  have hhead : head diskLong.mem = 180 := by decide +kernel
  have htiles : Tiles diskLong.mem [8, 52, 96] := by
    rw [Tiles, hhead]
    refine .step (c := 52) ?_ (.step (c := 96) ?_ (.step (c := 180) ?_ (.nil 180))) <;> decide +kernel
  have hread := h env₀ diskLong [8, 52, 96] (slash :: longName) 52 [7] 0 htiles (by decide +kernel)
    (by decide +kernel) (by decide +kernel) (by decide +kernel) (by decide) (by decide)
    (by decide +kernel) (by decide +kernel) (prefixesAreDirs_of_inits (by decide +kernel))
    (by decide +kernel) (by decide +kernel) 1 0
  exact absurd hread (by decide +kernel)

end OperatingSystems.Wfs
