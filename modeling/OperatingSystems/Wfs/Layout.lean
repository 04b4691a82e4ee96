import OperatingSystems.Lib.ByteMemory

/-!
# The disk layout of the log-structured file system

`wfs.h` over a byte memory.  An address is an offset into `mapped_data`; a pointer to a structure is
the offset of its first byte.  All numbers on the disk are little-endian, `unsigned int` fields have 32
bits and the inode number of a directory entry (an `unsigned long`) has 64.

| structure       | fields (offset in bytes)                                                          |
|-----------------|-----------------------------------------------------------------------------------|
| `wfs_sb`        | magic 0, head 4                                                                   |
| `wfs_inode`     | inode_number 0, deleted 4, mode 8, uid 12, gid 16, flags 20, size 24, atime 28, mtime 32, ctime 36, links 40 |
| `wfs_log_entry` | inode 0, data 44                                                                  |
| `wfs_dentry`    | name 0, inode_number 32                                                           |

The file also holds the C string functions the code calls: strings are byte lists without their
terminating NUL.
-/

namespace OperatingSystems.Wfs

open OperatingSystems.ByteMemory

def MAX_FILE_NAME_LEN : ℕ := 32
def MAX_PATH_NAME_LEN : ℕ := 128
def WFS_MAGIC : ℕ := 0xdeadbeef

/-- `sizeof(struct wfs_sb)`, the offset of the first log entry. -/
def sizeof_sb : ℕ := 8
/-- `sizeof(struct wfs_log_entry)`: the inode alone, since `data` is a flexible array member. -/
def sizeof_log_entry : ℕ := 44
/-- `sizeof(struct wfs_dentry)`. -/
def sizeof_dentry : ℕ := 40

/-- `__S_IFDIR` -/
def S_IFDIR : ℕ := 0x4000
/-- `__S_IFREG` -/
def S_IFREG : ℕ := 0x8000
/-- `__S_IFMT` -/
def S_IFMT : ℕ := 0xf000

/-- `S_ISDIR(mode)` -/
def S_ISDIR (mode : ℕ) : Bool := mode &&& S_IFMT == S_IFDIR
/-- `S_ISREG(mode)` -/
def S_ISREG (mode : ℕ) : Bool := mode &&& S_IFMT == S_IFREG

theorem not_isDir_of_isReg {mode : ℕ} (h : S_ISREG mode) : ¬S_ISDIR mode := by
  intro hd
  have hr : mode &&& S_IFMT = S_IFREG := by simpa [S_ISREG] using h
  have hd : mode &&& S_IFMT = S_IFDIR := by simpa [S_ISDIR] using hd
  exact absurd (hr.symm.trans hd) (by decide)

/-! ### The superblock and the log entries -/

/-- `sb->head` -/
def head (m : Mem) : ℕ := m.u32 4

/-- `sb->head = v` -/
def putHead (m : Mem) (v : ℕ) : Mem := m.put32 4 v

section Fields

variable (m : Mem) (e : ℕ)

/-- `e->inode.inode_number` -/
def inode_number : ℕ := m.u32 e
/-- `e->inode.deleted` -/
def deleted : ℕ := m.u32 (e + 4)
/-- `e->inode.mode` -/
def mode : ℕ := m.u32 (e + 8)
/-- `e->inode.uid` -/
def uid : ℕ := m.u32 (e + 12)
/-- `e->inode.gid` -/
def gid : ℕ := m.u32 (e + 16)
/-- `e->inode.flags` -/
def flags : ℕ := m.u32 (e + 20)
/-- `e->inode.size` -/
def size : ℕ := m.u32 (e + 24)
/-- `e->inode.atime` -/
def atime : ℕ := m.u32 (e + 28)
/-- `e->inode.mtime` -/
def mtime : ℕ := m.u32 (e + 32)
/-- `e->inode.ctime` -/
def ctime : ℕ := m.u32 (e + 36)
/-- `e->inode.links` -/
def links : ℕ := m.u32 (e + 40)

/-- The offset just after the entry at `e`: `e + sizeof(struct wfs_log_entry) + e->inode.size`. -/
def nextEntry : ℕ := e + sizeof_log_entry + size m e

/-- `e->data` -/
def data : ℕ := e + sizeof_log_entry

end Fields

/-- The fields of `struct wfs_inode`. -/
structure Inode where
  inode_number : ℕ
  deleted : ℕ
  mode : ℕ
  uid : ℕ
  gid : ℕ
  flags : ℕ
  size : ℕ
  atime : ℕ
  mtime : ℕ
  ctime : ℕ
  links : ℕ
  deriving DecidableEq, Repr

/-- Read the whole inode of the entry at `e`. -/
def getInode (m : Mem) (e : ℕ) : Inode where
  inode_number := inode_number m e
  deleted := deleted m e
  mode := mode m e
  uid := uid m e
  gid := gid m e
  flags := flags m e
  size := size m e
  atime := atime m e
  mtime := mtime m e
  ctime := ctime m e
  links := links m e

/-- Assign the fields of the inode at `e` one by one, in the order of the source. -/
def putInode (m : Mem) (e : ℕ) (i : Inode) : Mem :=
  ((((((((((m.put32 e i.inode_number).put32 (e + 4) i.deleted).put32 (e + 8) i.mode).put32
    (e + 12) i.uid).put32 (e + 16) i.gid).put32 (e + 20) i.flags).put32 (e + 24) i.size).put32
    (e + 28) i.atime).put32 (e + 32) i.mtime).put32 (e + 36) i.ctime).put32 (e + 40) i.links

/-- `&entries[i]` for `struct wfs_dentry *entries` at address `d`. -/
def dentryAt (d i : ℕ) : ℕ := d + sizeof_dentry * i

/-- `d->inode_number` of the directory entry at `d`. -/
def dentryIno (m : Mem) (d : ℕ) : ℕ := m.u64 (d + MAX_FILE_NAME_LEN)

/-- `int num_entries = e->inode.size / sizeof(struct wfs_dentry)` -/
def num_entries (m : Mem) (e : ℕ) : ℕ := size m e / sizeof_dentry

/-! ### Conversions between C's integer types -/

/-- A 32-bit pattern read as an `int` and then converted to a 64-bit unsigned number. -/
def intToSize (bits : ℕ) : ℕ := if bits < 2 ^ 31 then bits else bits + (2 ^ 64 - 2 ^ 32)

/-- A 32-bit pattern as the `int` a function returns. -/
def toInt (bits : ℕ) : ℤ :=
  if bits % 2 ^ 32 < 2 ^ 31 then (bits % 2 ^ 32 : ℕ) else (bits % 2 ^ 32 : ℕ) - 2 ^ 32

theorem intToSize_of_lt {bits : ℕ} (h : bits < 2 ^ 31) : intToSize bits = bits := if_pos h

/-! ### Strings -/

/-- A C string without its terminating NUL. -/
abbrev Str := List UInt8

/-- The character `'/'`. -/
def slash : UInt8 := 47

/-- `strcmp(p, t) == 0` for the string in memory at address `p`. -/
def streq (m : Mem) : ℕ → Str → Bool
  | p, [] => m.byte p == 0
  | p, c :: cs => m.byte p == c && streq m (p + 1) cs

/-- The name a reader of the directory entry at `d` sees: its bytes up to the first NUL. -/
def dentryName (m : Mem) (d : ℕ) : Str := (m.bytes d MAX_FILE_NAME_LEN).takeWhile (· != 0)

/-- The tokens `strtok_r(s, "/", &saveptr)` returns one after the other, with the characters `acc` of a
token already read (last one first). -/
def strtok : Str → Str → List Str
  | [], [] => []
  | acc, [] => [acc.reverse]
  | [], c :: cs => if c = slash then strtok [] cs else strtok [c] cs
  | a :: acc, c :: cs =>
    if c = slash then (a :: acc).reverse :: strtok [] cs else strtok (c :: a :: acc) cs

/-- The successive results of `strtok_r` on a copy of `path`. -/
def tokens (path : Str) : List Str := strtok [] path

/-- `strrchr(path, '/')`: what stands before and after the last slash. -/
def strrchr : Str → Option (Str × Str)
  | [] => none
  | c :: cs =>
    match strrchr cs with
    | some (p, f) => some (c :: p, f)
    | none => if c = slash then some ([], cs) else none

/-- `struct wfs_path_info` -/
structure PathInfo where
  filename : Str
  parent_path : Str
  deriving DecidableEq, Repr

/-- `separate_path_and_file`: the file name keeps at most `MAX_FILE_NAME_LEN - 1` characters. -/
def separate_path_and_file (path : Str) : PathInfo :=
  match strrchr path with
  | some (parent, filename) => ⟨filename.take (MAX_FILE_NAME_LEN - 1), parent⟩
  | none => ⟨path.take (MAX_FILE_NAME_LEN - 1), [slash]⟩

/-- The `MAX_FILE_NAME_LEN` bytes of `path_info.filename`, which `strncpy` pads with NULs. -/
def nameField (filename : Str) : List UInt8 :=
  (filename ++ List.replicate MAX_FILE_NAME_LEN 0).take MAX_FILE_NAME_LEN

/-- A path as the file system layer hands it over: absolute, a C string, and short enough for
`char path_copy[MAX_PATH_NAME_LEN]` to hold it with its NUL. -/
structure Path where
  str : Str
  absolute : str.head? = some slash
  no_nul : 0 ∉ str
  short : str.length < MAX_PATH_NAME_LEN

end OperatingSystems.Wfs
