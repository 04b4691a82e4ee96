import Mathlib
import OperatingSystems.Vm.Memory

/-!
# Growth, user memory and open files

`cangrowup`, which the page-fault handler calls; the accesses of the kernel to user memory, which may
fault and be resumed by it; and `file.c` with the parts of `fs.c` and `sysfile.c` that read, write,
open, duplicate and close files.

What a pipe or a device delivers comes from outside (`External`).

* **`cangrowup`** — one more page for the mapping below a guard page.
* **`loadBytes`**, **`storeBytes`** — user memory, byte by byte through the page table.
* **`fileread`**, **`filewrite`** — the latter writes in chunks and stops at the largest file size.
-/

namespace OperatingSystems.Vm

/-! ### `cangrowup` -/

/-- The test of the loop of `cangrowup` on one record; `va` is the page of the faulting address. -/
def growsInto (p : Proc) (va : ℕ) (m : MapEntry) : Bool :=
  m.inUse && has m.flags MAP_GROWSUP && decide (va = m.startingVirtualAddress + m.numPages) &&
    canallocatva p (m.startingVirtualAddress + m.numPages + 1) 1

/-- `V2P(0)`: the page that is mapped when `kalloc` has returned a null pointer.  The machine has no memory
there: it can be mapped, but a store into it is lost, and `mem` does not say what a load from it gives. -/
def nullPage : ℕ := 0x80000

/-- `cangrowup` for process `c`; `false` is the result `-1`. -/
def cangrowup (c : Slot) (va : ℕ) (k : Kernel) : Except Fault (Kernel × Bool) :=
  let p := k.proc c
  match (List.range (p.currentMappingIndex + 1)).find? fun i => growsInto p va (p.mapEntries i) with
  | none => .ok (k, false)
  | some i => do
    let m := p.mapEntries i
    let (physicalPage, freelist) := (kalloc k.freelist).getD (nullPage, k.freelist)
    let (pgdir, freelist, mapped) ← mappages p.pgdir (m.startingVirtualAddress + m.numPages)
      physicalPage freelist
    let k := { k with freelist }.modify c fun p => { p with pgdir }
    if mapped then
      let k ← setEntry c i { m with
        numPages := m.numPages + 1
        guardPageVirtualAddress := m.guardPageVirtualAddress + 1 } k
      return (k, true)
    else return (k, false)

/-! ### User memory -/

/-- A page that is not present faults: the access goes on if the page can be grown into. -/
def touch (c : Slot) (va : ℕ) (k : Kernel) : Except Fault (Kernel × ℕ) := do
  match (k.proc c).pgdir.pte va with
  | some pa => return (k, pa)
  | none =>
    let (k, grown) ← cangrowup c va k
    match grown, (k.proc c).pgdir.pte va with
    | true, some pa => return (k, pa)
    | _, _ => .error .trap

/-- The byte at an address of process `c`. -/
def loadByte (c : Slot) (addr : ℕ) (k : Kernel) : Except Fault (Kernel × UInt8) := do
  let (k, pa) ← touch c (addr / PGSIZE) k
  return (k, k.mem pa (addr % PGSIZE))

def storeByte (c : Slot) (addr : ℕ) (b : UInt8) (k : Kernel) : Except Fault Kernel := do
  let (k, pa) ← touch c (addr / PGSIZE) k
  return { k with mem := Function.update k.mem pa (Function.update (k.mem pa) (addr % PGSIZE) b) }

/-- `n` bytes from `addr` on. -/
def loadBytes (c : Slot) (addr : ℕ) : ℕ → Kernel → Except Fault (Kernel × List UInt8)
  | 0, k => .ok (k, [])
  | n + 1, k => do
    let (k, b) ← loadByte c addr k
    let (k, bs) ← loadBytes c (addr + 1) n k
    return (k, b :: bs)

/-- `memmove` to user memory. -/
def storeBytes (c : Slot) (addr : ℕ) : List UInt8 → Kernel → Except Fault Kernel
  | [], k => .ok k
  | b :: bs, k => do
    let k ← storeByte c addr b k
    storeBytes c (addr + 1) bs k

/-! ### Inodes -/

/-- `MAXFILE * BSIZE`. -/
def MAXFILESIZE : ℕ := (12 + 128) * 512

/-- The chunk of `filewrite`. -/
def CHUNK : ℕ := (10 - 1 - 1 - 2) / 2 * 512

/-- What lies outside: the bytes that a pipe or a device delivers (`none` is `-1`), and whether it takes
what is written to it. -/
structure External where
  input : Option (List UInt8)
  takes : Bool

/-- `readi` on an array of bytes; `none` is `-1`. -/
def readi (ip : Inode) (off n : ℕ) : Option (List UInt8) :=
  if off > ip.size then none
  else some ((List.range (min n (ip.size - off))).map fun i => ip.data (off + i))

/-- The bytes are put at `off`, and the size follows a write past the end. -/
def Inode.put (ip : Inode) (src : List UInt8) (off : ℕ) : Inode :=
  { ip with
    size := max ip.size (off + src.length)
    data := fun i => if off ≤ i ∧ i < off + src.length then src.getD (i - off) 0 else ip.data i }

/-- `writei` of `n` bytes of the memory of process `c` to inode `inum`; `false` is `-1`. -/
def writei (c : Slot) (inum addr off n : ℕ) (ext : External) (k : Kernel) :
    Except Fault (Kernel × Bool) :=
  let ip := k.inode inum
  if ip.isDev then .ok (k, ext.takes)
  else if off > ip.size ∨ off + n > MAXFILESIZE then .ok (k, false)
  else do
    let (k, bytes) ← loadBytes c addr n k
    return ({ k with inode := Function.update k.inode inum (ip.put bytes off) }, true)

/-! ### `file.c` -/

def Kernel.setFile (k : Kernel) (f : ℕ) (file : File) : Kernel :=
  { k with file := Function.update k.file f file }

/-- `fileread`; `none` is `-1`. -/
def fileread (f n : ℕ) (ext : External) (k : Kernel) :
    Except Fault (Kernel × Option (List UInt8)) :=
  let file := k.file f
  if file.readable = false then .ok (k, none)
  else match file.type with
    | .FD_PIPE => .ok (k, ext.input.map (List.take n))
    | .FD_INODE =>
      let ip := k.inode file.ip
      let r := if ip.isDev then ext.input.map (List.take n) else readi ip file.off n
      .ok (k.setFile f { file with off := file.off + (r.getD []).length }, r)
    | .FD_NONE => .error .filetype

/-- The loop of `filewrite` on an inode, with its chunks of at most `CHUNK` bytes; `false` is `-1`. -/
def writeChunks (c : Slot) (f addr : ℕ) (ext : External) :
    (rounds n : ℕ) → Kernel → Except Fault (Kernel × Bool)
  | 0, _, k => .ok (k, true)
  | rounds + 1, n, k =>
    if n = 0 then .ok (k, true)
    else do
      let n1 := min n CHUNK
      let (k, written) ← writei c (k.file f).ip addr (k.file f).off n1 ext k
      if written then
        let file := k.file f
        let k := k.setFile f { file with off := file.off + n1 }
        writeChunks c f (addr + n1) ext rounds (n - n1) k
      else return (k, false)

/-- `filewrite` of `n` bytes of user memory; `false` is `-1`. -/
def filewrite (c : Slot) (f addr n : ℕ) (ext : External) (k : Kernel) :
    Except Fault (Kernel × Bool) :=
  let file := k.file f
  if file.writable = false then .ok (k, false)
  else match file.type with
    | .FD_PIPE => .ok (k, ext.takes)
    | .FD_INODE => writeChunks c f addr ext n n k
    | .FD_NONE => .error .filetype

/-- The open file of a descriptor; the array is indexed without a check.  Where the code then takes a null
pointer for a `struct file`, it has no defined behaviour, and the model ends there with `nullFile`; on the
machine address `0` is user memory, so that the kernel reads whatever the process has there. -/
def ofileAt (p : Proc) (fd : ℤ) : Except Fault ℕ :=
  if 0 ≤ fd ∧ fd < NOFILE then
    match p.ofile fd.toNat with
    | some f => .ok f
    | none => .error .nullFile
  else .error .ofileIndex

/-! ### Descriptors -/

/-- The length of `ftable.file`. -/
def NFILE : ℕ := 100

/-- `filealloc`. -/
def filealloc (k : Kernel) : Option ℕ :=
  (List.range NFILE).find? fun f => decide ((k.file f).ref = 0)

/-- `fdalloc`. -/
def fdalloc (p : Proc) : Option ℕ :=
  (List.range NOFILE).find? fun fd => (p.ofile fd).isNone

/-- `fileclose`; the inode itself is left to `iput`. -/
def fileclose (f : ℕ) (k : Kernel) : Kernel :=
  let file := k.file f
  if file.ref - 1 > 0 then k.setFile f { file with ref := file.ref - 1 }
  else k.setFile f { file with ref := 0, type := .FD_NONE }

def setOfile (c : Slot) (fd : ℕ) (f : Option ℕ) (k : Kernel) : Kernel :=
  k.modify c fun p => { p with ofile := Function.update p.ofile fd f }

/-- `sys_open`, for the inode `ip` that the path names. -/
def sys_open (c : Slot) (ip : ℕ) (readable writable : Bool) (k : Kernel) : Kernel × Option ℕ :=
  match filealloc k, fdalloc (k.proc c) with
  | some f, some fd =>
    (setOfile c fd (some f) (k.setFile f ⟨.FD_INODE, 1, readable, writable, ip, 0⟩), some fd)
  | _, _ => (k, none)

/-- `argfd`. -/
def argfd (p : Proc) (fd : ℤ) : Option (ℕ × ℕ) :=
  if 0 ≤ fd ∧ fd < NOFILE then (p.ofile fd.toNat).map fun f => (fd.toNat, f) else none

def sys_dup (c : Slot) (fd : ℤ) (k : Kernel) : Kernel × Option ℕ :=
  match argfd (k.proc c) fd, fdalloc (k.proc c) with
  | some (_, f), some fd' =>
    (setOfile c fd' (some f) (k.setFile f { k.file f with ref := (k.file f).ref + 1 }), some fd')
  | _, _ => (k, none)

/-- `sys_close`; `false` is `-1`. -/
def sys_close (c : Slot) (fd : ℤ) (k : Kernel) : Kernel × Bool :=
  match argfd (k.proc c) fd with
  | some (fd, f) => (fileclose f (setOfile c fd none k), true)
  | none => (k, false)

end OperatingSystems.Vm
