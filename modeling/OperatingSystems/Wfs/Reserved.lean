import OperatingSystems.Wfs.Failures

/-!
# The space that a write reserves

`wfs_write` computes the new size in an `int` and reserves room for it.  `StaysReserved` says of a call
that it failed and changed nothing, or that all it stored lies between the old head and the new one.

* **`write_stays_reserved_iff`** — a call does so exactly when the end of the write is below `2^31`, or the
  truncated end does not pass the check for room.
* `sparse_write_leaves_reserved` — a write of one byte at offset `2^32` that is taken for one of a byte.
-/

namespace OperatingSystems.Wfs

open OperatingSystems.ByteMemory OperatingSystems.ByteMemory.Mem

variable {m m' : Mem} {offs : List ℕ} {e : ℕ} {im : Image} {path : Str} {buffer : List UInt8} {offset : ℕ}
  {env : Env}

/-- What a successful write of `buffer` at `offset` has to stay inside of. -/
structure Reserved (disk_size : ℕ) (m m' : Mem) (e : ℕ) (buffer : List UInt8) (offset : ℕ) : Prop where
  copied : data (head m) + size m e ≤ head m'
  stored : data (head m) + offset + buffer.length ≤ head m'
  head_le : head m' ≤ disk_size
  size_eq : size m' (head m) = max (size m e) (offset + buffer.length)
  frame : ∀ x, x < head m ∨ head m' ≤ x → x < 4 ∨ sizeof_sb ≤ x → m'.byte x = m.byte x

/-- What one call has to do: it fails and changes nothing, or it stays inside of what it reserves. -/
def StaysReserved (im : Image) (r : Except Errno ℤ × Image) (e : ℕ) (buffer : List UInt8) (offset : ℕ) :
    Prop :=
  (∃ err, r.1 = .error err) ∧ r.2 = im ∨
    (∃ n, r.1 = .ok n) ∧ Reserved im.disk_size im.mem r.2.mem e buffer offset

/-- The end of a write, cut to 32 bits and read as an `int`, does not pass the check for room. -/
def CutRefused (im : Image) (last : ℕ) : Prop :=
  let w := last % 2 ^ 32
  if w < 2 ^ 31 then im.disk_size < head im.mem + sizeof_log_entry + w
  else head im.mem + sizeof_log_entry + w < 2 ^ 32 ∨
    im.disk_size + 2 ^ 32 < head im.mem + sizeof_log_entry + w

theorem cutRefused_iff {last : ℕ} (hhead : head im.mem < 2 ^ 31) : CutRefused im last ↔
    im.disk_size < (head im.mem + sizeof_log_entry + intToSize (last % 2 ^ 32)) % 2 ^ 64 := by
  have hds := im.disk_size_lt
  have hw : last % 2 ^ 32 < 2 ^ 32 := Nat.mod_lt _ (by decide)
  unfold CutRefused intToSize
  dsimp only
  rw [sizeof_log_entry]
  split
  · rw [Nat.mod_eq_of_lt (b := 2 ^ 64) (by omega)]
  · omega

/-- The ranges that a new version of a file is stored to. -/
theorem appendFile_writes {old : ℕ} (hold : nextEntry m old ≤ head m) (i : Inode) :
    Writes m (appendFile m old i buffer offset)
      ((4, 4) :: (data (head m) + offset, buffer.length) :: (data (head m), size m old) ::
        inodeFields (head m)) := by
  have hsize : size (putInode m (head m) i) old = size m old := by
    refine u32_congr fun b hb => putInode_byte_out ?_
    rw [nextEntry, sizeof_log_entry] at hold
    omega
  have hws := (((putInode_writes m (head m) i).copyFrom (putInode m (head m) i) (data (head m))
    (data old) (size m old)).putBytes (data (head m) + offset) buffer).put32 4
    (head (((putInode m (head m) i).copyFrom (putInode m (head m) i) (data (head m)) (data old)
      (size m old)).putBytes (data (head m) + offset) buffer) + sizeof_log_entry +
      size (((putInode m (head m) i).copyFrom (putInode m (head m) i) (data (head m)) (data old)
        (size m old)).putBytes (data (head m) + offset) buffer) (head m))
  rw [← hsize] at hws ⊢
  exact hws

/-- **What a write whose end is below `2^31` can do**: nothing, or append a fresh entry with room for it. -/
theorem wfs_write_small (htiles : Tiles im.mem offs) (env : Env) (path : Str)
    (hlast : offset + buffer.length < 2 ^ 31) (hhead : head im.mem ≤ im.disk_size) :
    (∃ err, wfs_write env im path buffer offset = (.error err, im)) ∨
    ∃ e, find_log_entry_by_path im.mem path = some e ∧
      let sz := max (size im.mem e) (offset + buffer.length)
      let m' := appendFile im.mem e (env.inode (inode_number im.mem e) S_IFREG sz) buffer offset
      head im.mem + sizeof_log_entry + sz ≤ im.disk_size ∧
        FreshEntry im.mem m' (inode_number im.mem e) S_IFREG sz ∧
        wfs_write env im path buffer offset = (.ok (toInt buffer.length), { im with mem := m' }) := by
  have hds := im.disk_size_lt
  have hsb : sizeof_sb ≤ head im.mem := htiles.le (lt_nextEntry im.mem)
  unfold wfs_write
  cases hfind : find_log_entry_by_path im.mem path with
  | none => exact Or.inl ⟨_, rfl⟩
  | some e =>
    have hnext := (htiles.bounds (lt_nextEntry im.mem) e (found_visited htiles.visits hfind).1).2
    have hsize : size im.mem e < 2 ^ 31 := by
      rw [nextEntry] at hnext
      omega
    have hnew : newSize im.mem e buffer.length offset = _ := newSize_eq hlast
    have hmax : max (size im.mem e) (offset + buffer.length) < 2 ^ 31 := by omega
    simp only [hnew, intToSize_of_lt hmax]
    rw [Nat.mod_eq_of_lt (show head im.mem + sizeof_log_entry +
      max (size im.mem e) (offset + buffer.length) < 2 ^ 64 by rw [sizeof_log_entry]; omega)]
    split
    · exact Or.inl ⟨_, rfl⟩
    · rename_i hroom
      refine Or.inr ⟨e, rfl, not_lt.mp hroom, ?_, rfl⟩
      exact appendFile_fresh env e offset buffer hsb (u32_lt _ _) (by omega)

/-- A write whose end is below `2^31` stays inside what it has reserved. -/
theorem write_reserved (htiles : Tiles im.mem offs) (hfind : find_log_entry_by_path im.mem path = some e)
    (hlast : offset + buffer.length < 2 ^ 31) (hhead : head im.mem ≤ im.disk_size) :
    StaysReserved im (wfs_write env im path buffer offset) e buffer offset := by
  have hnext := (htiles.bounds (lt_nextEntry im.mem) e (found_visited htiles.visits hfind).1).2
  rcases wfs_write_small htiles env path hlast hhead with ⟨err, heq⟩ | ⟨e', hfind', hroom, hfresh, heq⟩
  · rw [heq]
    exact Or.inl ⟨⟨err, rfl⟩, rfl⟩
  · obtain rfl : e = e' := Option.some.inj (hfind.symm.trans hfind')
    have hh := hfresh.head_eq
    rw [heq]
    refine Or.inr ⟨⟨_, rfl⟩, ?_⟩
    refine ⟨?_, ?_, ?_, hfresh.size_eq, ?_⟩
    · rw [hh, data]
      omega
    · rw [hh, data]
      omega
    · rw [hh]
      exact hroom
    · intro x hx hx'
      rw [hh] at hx
      rw [sizeof_sb] at hx'
      refine (appendFile_writes hnext _).frame x ?_
      rw [covers_cons, covers_cons, covers_cons, covers_inodeFields, data]
      omega

/-- What a new entry has also where its size and the head overflow. -/
theorem freshEntry_cut {k md sz : ℕ} {m₁ : Mem} {ws : List (ℕ × ℕ)} (hsb : sizeof_sb ≤ head m)
    (hws : Writes (putInode m (head m) (env.inode k md sz)) m₁ ws)
    (hlow : ∀ x, Covers ws x → head m + sizeof_log_entry ≤ x)
    (hm' : m' = putHead m₁ (head m₁ + sizeof_log_entry + size m₁ (head m))) :
    inode_number m' (head m) = k % 2 ^ 32 ∧ size m' (head m) = sz % 2 ^ 32 ∧
      head m' = (head m + sizeof_log_entry + sz % 2 ^ 32) % 2 ^ 32 ∧
      ∀ x, sizeof_sb ≤ x → x < head m → m'.byte x = m.byte x := by
  obtain ⟨hkeep, hsize, -⟩ := putInode_kept hsb hws hlow
  obtain ⟨hino, -, -, -⟩ := putInode_fields m (head m) (env.inode k md sz)
  have hhead := freshEntry_head hsb hws hlow hm'
  rw [sizeof_sb] at hsb
  refine ⟨?_, ?_, hhead, fun x hx₁ hx₂ => ?_⟩
  · refine Eq.trans ?_ hino
    rw [hm', inode_number, putHead, u32_put32_out _ _ (by omega)]
    exact u32_congr fun b hb => hkeep _ (by rw [sizeof_log_entry]; omega)
  · rw [← hsize, hm', size, putHead, u32_put32_out _ _ (by omega)]
    rfl
  · rw [sizeof_sb] at hx₁
    rw [hm', putHead, byte_put32_out _ _ (by omega), hkeep x (by omega), putInode_byte_out (by omega)]

/-- What a write with its size cut to 32 bits leaves: the size and the head, also where they overflow. -/
theorem appendFile_cut {k sz old : ℕ} (hsb : sizeof_sb ≤ head m) :
    size (appendFile m old (env.inode k S_IFREG sz) buffer offset) (head m) = sz % 2 ^ 32 ∧
      head (appendFile m old (env.inode k S_IFREG sz) buffer offset) =
        (head m + sizeof_log_entry + sz % 2 ^ 32) % 2 ^ 32 := by
  have happ : appendFile m old (env.inode k S_IFREG sz) buffer offset = _ := rfl
  obtain ⟨-, hsize, hhead, -⟩ := freshEntry_cut hsb (((Writes.refl _).copyFrom (putInode m (head m) (env.inode k S_IFREG sz))
      (data (head m)) (data old) (size (putInode m (head m) (env.inode k S_IFREG sz)) old)).putBytes
      (data (head m) + offset) buffer) (fun x hx => by
        simp only [covers_cons, not_covers_nil, or_false, data] at hx
        omega) happ
  exact ⟨hsize, hhead⟩

/-- What an unlink leaves, also where the size overflows. -/
theorem appendUnlinked_cut {k sz parent ino : ℕ} (hsb : sizeof_sb ≤ head m) :
    let m' := appendUnlinked m parent ino (env.inode k S_IFDIR sz)
    inode_number m' (head m) = k % 2 ^ 32 ∧ size m' (head m) = sz % 2 ^ 32 ∧
      head m' = (head m + sizeof_log_entry + sz % 2 ^ 32) % 2 ^ 32 ∧
      ∀ x, sizeof_sb ≤ x → x < head m → m'.byte x = m.byte x := by
  obtain ⟨ws, hws, hlow⟩ := copyDentries_low parent ino (head m)
    (putInode m (head m) (env.inode k S_IFDIR sz)) 0 (List.range (num_entries m parent))
  exact freshEntry_cut hsb hws hlow rfl

/-- A write whose end is not below `2^31` leaves what it has reserved, unless the check refuses it. -/
theorem write_leaves_reserved (htiles : Tiles im.mem offs)
    (hfind : find_log_entry_by_path im.mem path = some e) (hlast : 2 ^ 31 ≤ offset + buffer.length)
    (hlt : offset + buffer.length < 2 ^ 63) (hhead : head im.mem ≤ im.disk_size) :
    StaysReserved im (wfs_write env im path buffer offset) e buffer offset ↔
      CutRefused im (offset + buffer.length) := by
  have hds := im.disk_size_lt
  have hsb : sizeof_sb ≤ head im.mem := htiles.le (lt_nextEntry im.mem)
  have hnext := (htiles.bounds (lt_nextEntry im.mem) e (found_visited htiles.visits hfind).1).2
  have hsize : size im.mem e < 2 ^ 31 := by
    rw [nextEntry] at hnext
    omega
  have hnew : newSize im.mem e buffer.length offset = (offset + buffer.length) % 2 ^ 32 := by
    unfold newSize
    rw [Nat.mod_eq_of_lt (b := 2 ^ 64) (by omega), if_pos (by omega)]
  have hw : (offset + buffer.length) % 2 ^ 32 < 2 ^ 32 := Nat.mod_lt _ (by decide)
  rw [cutRefused_iff (by omega)]
  unfold wfs_write
  rw [hfind]
  simp only [hnew]
  split
  · rename_i hroom
    exact ⟨fun _ => hroom, fun _ => Or.inl ⟨⟨_, rfl⟩, rfl⟩⟩
  · rename_i hroom
    refine ⟨fun h => ?_, fun h => absurd h hroom⟩
    rcases h with ⟨⟨err, herr⟩, -⟩ | ⟨-, hres⟩
    · cases herr
    · obtain ⟨hsz, hhd⟩ := @appendFile_cut im.mem buffer offset env (inode_number im.mem e)
        ((offset + buffer.length) % 2 ^ 32) e hsb
      have hstored := hres.stored
      have hmax := hres.size_eq
      rw [hhd, data, Nat.mod_mod] at hstored
      rw [hsz, Nat.mod_mod] at hmax
      rw [sizeof_log_entry] at hstored hroom
      -- an end from `2^32` on has its size cut, an end from `2^31` on its new head
      have hend : (offset + buffer.length) % 2 ^ 32 = offset + buffer.length := by
        refine Nat.mod_eq_of_lt ?_
        have hle := Nat.le_max_right (size im.mem e) (offset + buffer.length)
        omega
      rw [hend] at hroom hstored
      unfold intToSize at hroom
      rw [if_neg (by omega)] at hroom
      omega

/-- **A write stays inside the space that it reserves exactly when its end is below `2^31`**, or the end
cut to 32 bits is refused. -/
theorem write_stays_reserved_iff (htiles : Tiles im.mem offs) (hhead : head im.mem ≤ im.disk_size)
    (hfind : find_log_entry_by_path im.mem path = some e) (hlt : offset + buffer.length < 2 ^ 63) :
    StaysReserved im (wfs_write env im path buffer offset) e buffer offset ↔
      offset + buffer.length < 2 ^ 31 ∨ CutRefused im (offset + buffer.length) := by
  by_cases hlast : offset + buffer.length < 2 ^ 31
  · exact ⟨fun _ => Or.inl hlast, fun _ => write_reserved htiles hfind hlast hhead⟩
  · rw [write_leaves_reserved htiles hfind (not_lt.mp hlast) hlt hhead]
    exact ⟨Or.inr, fun h => h.resolve_left hlast⟩

/-- Overwriting the first hundred bytes of `/a/x` stays inside what it reserves. -/
theorem write_stays_reserved_small :
    ∃ offs, Tiles diskAX.mem offs ∧ (StaysReserved diskAX
      (wfs_write env₀ diskAX pathAX.str (List.replicate 100 7) 0) 264 (List.replicate 100 7) 0 ↔
        0 + (List.replicate 100 (7 : UInt8)).length < 2 ^ 31 ∨
          CutRefused diskAX (0 + (List.replicate 100 (7 : UInt8)).length)) := by
  obtain ⟨offs, h⟩ := sound_of_reach reach_diskAX
  exact ⟨offs, h.wf.tiles, write_stays_reserved_iff h.wf.tiles (by decide +kernel) (by decide +kernel)
    (by decide +kernel)⟩

/-- **A sparse write leaves what it reserves**: the end of one byte at offset `2^32` is cut to `1`, and the
byte is stored four gigabytes behind the head. -/
theorem sparse_write_leaves_reserved : ¬∀ (env : Env) (im : Image) (offs : List ℕ) (path : Str) (e : ℕ)
    (buffer : List UInt8) (offset : ℕ), Tiles im.mem offs → head im.mem ≤ im.disk_size →
      find_log_entry_by_path im.mem path = some e → S_ISREG (mode im.mem e) → 1 ≤ buffer.length →
      offset + buffer.length < 2 ^ 63 →
      StaysReserved im (wfs_write env im path buffer offset) e buffer offset := by
  intro h
  obtain ⟨offs, hsound⟩ := sound_of_reach reach_diskAX
  have hfind : find_log_entry_by_path diskAX.mem pathAX.str = some 264 := by decide +kernel
  have hhead : head diskAX.mem ≤ diskAX.disk_size := by decide +kernel
  have hcut : CutRefused diskAX (2 ^ 32 + [(7 : UInt8)].length) :=
    (write_leaves_reserved hsound.wf.tiles hfind (by decide) (by decide) hhead).mp
      (h env₀ diskAX offs pathAX.str 264 [7] (2 ^ 32) hsound.wf.tiles hhead hfind (by decide +kernel)
        (by decide) (by decide))
  rw [cutRefused_iff (by decide +kernel)] at hcut
  exact absurd hcut (by decide +kernel)

end OperatingSystems.Wfs
