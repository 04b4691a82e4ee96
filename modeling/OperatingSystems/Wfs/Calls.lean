import OperatingSystems.Wfs.Lookup

/-!
# The calls of the mounted file system, `mkfs` and `fsck`

The functions of `mount.wfs.c` that FUSE calls, and the `main` functions of `mkfs.wfs.c` and
`fsck.wfs.c`, as functions on disk images.  `wfs_mknod` and `wfs_mkdir` share one body and differ in the
type of the entry they create.

What the environment supplies is `Env`: the ids of the caller and the results of the three calls of
`time(NULL)`.  A call returns its `int` result, or the error number it returns negated, and the image.
-/

namespace OperatingSystems.Wfs

open OperatingSystems.ByteMemory

/-- The mapped disk: `mapped_data` and `int disk_size`, which is not negative once `lseek` and `mmap`
have succeeded. -/
structure Image where
  mem : Mem
  disk_size : ℕ
  disk_size_lt : disk_size < 2 ^ 31

/-- The error numbers the calls return. -/
inductive Errno
  | EEXIST
  | ENOENT
  | EISDIR
  | ENOTDIR
  | ENOSPC
  deriving DecidableEq, Repr

/-- `getuid()`, `getgid()` and the three results of `time(NULL)`. -/
structure Env where
  uid : ℕ
  gid : ℕ
  atime : ℕ
  mtime : ℕ
  ctime : ℕ

/-- The inode a call writes for inode number `i`. -/
def Env.inode (env : Env) (i mode size : ℕ) : Inode where
  inode_number := i
  deleted := 0
  mode := mode
  uid := env.uid
  gid := env.gid
  flags := 0
  size := size
  atime := env.atime
  mtime := env.mtime
  ctime := env.ctime
  links := 1

/-- The fields of `struct stat` that `wfs_getattr` sets. -/
structure Stat where
  st_ino : ℕ
  st_mode : ℕ
  st_nlink : ℕ
  st_uid : ℕ
  st_gid : ℕ
  st_size : ℕ
  st_mtime : ℕ
  deriving DecidableEq, Repr

def wfs_getattr (im : Image) (path : Str) : Except Errno Stat :=
  match find_log_entry_by_path im.mem path with
  | none => .error .ENOENT
  | some e => .ok {
      st_ino := inode_number im.mem e
      st_mode := mode im.mem e
      st_nlink := links im.mem e
      st_uid := uid im.mem e
      st_gid := gid im.mem e
      st_size := size im.mem e
      st_mtime := mtime im.mem e }

/-! ### Creating an entry -/

/-- The address of `entries[num_entries]` in the entry at `e`. -/
def dentryEnd (m : Mem) (e : ℕ) : ℕ := dentryAt (data e) (num_entries m e)

/-- Append the new version of the directory at `parent` that also holds `filename` with inode number
`ino`, and move the head behind it. -/
def appendParent (m : Mem) (parent : ℕ) (filename : Str) (ino : ℕ) : Mem :=
  let e := head m
  let m := m.copyFrom m e parent (sizeof_log_entry + size m parent)
  let d := dentryEnd m e
  let m := m.putBytes d (nameField filename)
  let m := m.put64 (d + MAX_FILE_NAME_LEN) (intToSize ino)
  let m := m.put32 (e + 24) (size m e + sizeof_dentry)
  putHead m (head m + sizeof_log_entry + size m e)

/-- Append an entry with inode `i` and no data, and move the head behind it. -/
def appendEmpty (m : Mem) (i : Inode) : Mem :=
  let e := head m
  let m := putInode m e i
  putHead m (head m + sizeof_log_entry + size m e)

/-- `int new_inode_number = find_max_inode_number() + 1`, as a 32-bit pattern. -/
def newInodeNumber (m : Mem) : ℕ := (find_max_inode_number m + 1) % 2 ^ 32

/-- The common body of `wfs_mknod` and `wfs_mkdir`; `type` is the mode of the new entry. -/
def createEntry (type : ℕ) (env : Env) (im : Image) (path : Str) : Except Errno ℤ × Image :=
  match find_log_entry_by_path im.mem path with
  | some _ => (.error .EEXIST, im)
  | none =>
    let info := separate_path_and_file path
    match find_log_entry_by_path im.mem info.parent_path with
    | none => (.error .ENOENT, im)
    | some parent =>
      let ino := newInodeNumber im.mem
      if im.disk_size <
          head im.mem + sizeof_log_entry + size im.mem parent + sizeof_dentry then
        (.error .ENOSPC, im)
      else
        let m := appendParent im.mem parent info.filename ino
        if im.disk_size < head m + sizeof_log_entry then
          (.error .ENOSPC, { im with mem := m })
        else
          (.ok 0, { im with mem := appendEmpty m (env.inode ino type 0) })

def wfs_mknod (env : Env) (im : Image) (path : Str) : Except Errno ℤ × Image :=
  createEntry S_IFREG env im path

def wfs_mkdir (env : Env) (im : Image) (path : Str) : Except Errno ℤ × Image :=
  createEntry S_IFDIR env im path

/-! ### Reading and writing a file -/

/-- The result and the bytes put into the caller's buffer. -/
def wfs_read (im : Image) (path : Str) (bufsize offset : ℕ) : Except Errno (ℤ × List UInt8) :=
  match find_log_entry_by_path im.mem path with
  | none => .error .ENOENT
  | some e =>
    if size im.mem e ≤ offset then .ok (0, [])
    else
      let bytes_to_read :=
        if size im.mem e - offset < bufsize then size im.mem e - offset else bufsize
      .ok (toInt bytes_to_read, im.mem.bytes (data e + offset) bytes_to_read)

/-- `int new_size`, as a 32-bit pattern; `offset + size` is computed in `size_t`. -/
def newSize (m : Mem) (e count offset : ℕ) : ℕ :=
  if size m e < (offset + count) % 2 ^ 64 then (offset + count) % 2 ^ 32 else size m e

/-- Append the new version of the file at `e`: its old data, overwritten at `offset` by the buffer. -/
def appendFile (m : Mem) (old : ℕ) (i : Inode) (buffer : List UInt8) (offset : ℕ) : Mem :=
  let e := head m
  let m := putInode m e i
  let m := m.copyFrom m (data e) (data old) (size m old)
  let m := m.putBytes (data e + offset) buffer
  putHead m (head m + sizeof_log_entry + size m e)

def wfs_write (env : Env) (im : Image) (path : Str) (buffer : List UInt8) (offset : ℕ) :
    Except Errno ℤ × Image :=
  match find_log_entry_by_path im.mem path with
  | none => (.error .ENOENT, im)
  | some e =>
    let new_size := newSize im.mem e buffer.length offset
    if im.disk_size < (head im.mem + sizeof_log_entry + intToSize new_size) % 2 ^ 64 then
      (.error .ENOSPC, im)
    else
      let i := env.inode (inode_number im.mem e) S_IFREG new_size
      (.ok (toInt buffer.length), { im with mem := appendFile im.mem e i buffer offset })

/-! ### Listing a directory and removing a name -/

/-- The names passed to `filler`, in order. -/
def wfs_readdir (im : Image) (path : Str) : Except Errno (List Str) :=
  match find_log_entry_by_path im.mem path with
  | none => .error .ENOENT
  | some e =>
    if S_ISREG (mode im.mem e) then .error .ENOTDIR
    else .ok ([46] :: [46, 46] :: (List.range (num_entries im.mem e)).map fun i =>
      dentryName im.mem (dentryAt (data e) i))

/-- One round of the copy loop of `wfs_unlink`: `s.2` is `curr`. -/
def copyDentry (old ino new : ℕ) (s : Mem × ℕ) (i : ℕ) : Mem × ℕ :=
  let src := dentryAt (data old) i
  if dentryIno s.1 src = ino then s
  else
    let dst := dentryAt (data new) s.2
    let m := s.1.put64 (dst + MAX_FILE_NAME_LEN) (dentryIno s.1 src)
    (m.copyFrom m dst src MAX_FILE_NAME_LEN, s.2 + 1)

/-- `sizeof(struct wfs_dentry) * (num_entries - 1)` in `size_t`. -/
def unlinkSize (n : ℕ) : ℕ := (sizeof_dentry * (n + (2 ^ 64 - 1))) % 2 ^ 64

/-- Append the new version of the directory at `parent` without inode `ino`, and move the head. -/
def appendUnlinked (m : Mem) (parent ino : ℕ) (i : Inode) : Mem :=
  let e := head m
  let n := num_entries m parent
  let m := putInode m e i
  let m := ((List.range n).foldl (copyDentry parent ino e) (m, 0)).1
  putHead m (head m + sizeof_log_entry + size m e)

def wfs_unlink (env : Env) (im : Image) (path : Str) : Except Errno ℤ × Image :=
  match find_log_entry_by_path im.mem path with
  | none => (.error .ENOENT, im)
  | some e =>
    if S_ISDIR (mode im.mem e) then (.error .EISDIR, im)
    else
      match find_log_entry_by_path im.mem (separate_path_and_file path).parent_path with
      | none => (.error .ENOENT, im)
      | some parent =>
        let del := delete_log_entries im.mem (inode_number im.mem e)
        let m := del.1
        let n := num_entries m parent
        if im.disk_size < (head m + sizeof_log_entry + unlinkSize n) % 2 ^ 64 then
          (.error .ENOSPC, { im with mem := m })
        else
          let i := env.inode (inode_number m parent) S_IFDIR (unlinkSize n % 2 ^ 32)
          let im' := { im with mem := appendUnlinked m parent (inode_number m e) i }
          (if del.2 then .ok 0 else .error .ENOENT, im')

/-! ### `mkfs` and `fsck` -/

/-- `mkfs.wfs`: the superblock and an empty root directory.  The rest of the disk is left as it is. -/
def mkfs (env : Env) (im : Image) : Image :=
  let m := im.mem.put32 0 WFS_MAGIC
  let m := putHead m 0
  let m := putInode m sizeof_sb (env.inode 0 S_IFDIR 0)
  let m := putHead m (head m + sizeof_log_entry)
  { im with mem := putHead m (head m + sizeof_sb) }

/-- One round of the loop of `fsck.wfs` over the inode numbers. -/
def fsckCopy (old new : Mem) (i : ℕ) : Mem :=
  match find_latest_log_entry old i with
  | none => new
  | some e =>
    if deleted old e = 1 then new
    else
      let new' := new.copyFrom old (head new) e (sizeof_log_entry + size old e)
      putHead new' (head new' + sizeof_log_entry + size old e)

/-- The superblock `fsck.wfs` puts into zeroed memory. -/
def newSuperblock : Mem :=
  let new : Mem := ⟨fun _ => 0, []⟩
  let new := new.put32 0 WFS_MAGIC
  let new := putHead new 0
  putHead new (head new + sizeof_sb)

/-- The compacted log `fsck.wfs` builds behind it.  The loop variable is an `int`: a maximum with the sign
bit set is negative, and then no round is run. -/
def compact (m : Mem) : Mem :=
  let rounds := if find_max_inode_number m < 2 ^ 31 then find_max_inode_number m + 1 else 0
  (List.range rounds).foldl (fsckCopy m) newSuperblock

/-- `fsck.wfs`: the whole disk is overwritten with the compacted log. -/
def fsck (im : Image) : Image :=
  { im with mem := im.mem.copyFrom (compact im.mem) 0 0 im.disk_size }

end OperatingSystems.Wfs
