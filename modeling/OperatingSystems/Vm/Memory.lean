import Mathlib

/-!
# Physical pages, page tables and mapping records

The data that the memory-mapping code of xv6 works on, and the functions below the system calls:
`kalloc.c`, the page-table functions of `vm.c`, and the scanners of `proc.c`.

Addresses that the code keeps are multiples of `PGSIZE` and are given as page numbers, physical and
virtual.  A page directory is given by what a walk finds: for each 4 MB of the user half the page that
holds the entries, if there is one, and for each page the page it is mapped to, if it is present.  The
kernel half is the same in every page directory.

* **`Kernel`** — the free list, the contents of the pages, the processes and their files.
* **`kalloc`**, **`kfree`**, **`mappages`**, **`clearpte`** — the operations on pages; a panic is an error.
* **`isguardpage`**, **`canallocatva`**, **`findmappingmetadata`** — the scanners.
-/

namespace OperatingSystems.Vm

/-- Bytes in a page. -/
def PGSIZE : ℕ := 4096

/-- The page of the address `0x60000000`, the lowest one for mappings. -/
def MMAPBASE : ℕ := 0x60000

/-- The page of `KERNBASE`, where the kernel half begins. -/
def KERNBASE : ℕ := 0x80000

/-- The page of `DEVSPACE`. -/
def DEVSPACE : ℕ := 0xFE000

/-- The first page beyond the physical memory. -/
def PHYSTOP : ℕ := 0xE000

def NPROC : ℕ := 64
def NOFILE : ℕ := 16

/-- The length of `mapEntries`. -/
def NMAP : ℕ := 100

instance : NeZero NPROC := ⟨by decide⟩

abbrev Slot := Fin NPROC

/-! ### Flags -/

def MAP_PRIVATE : BitVec 32 := 0x0001
def MAP_SHARED : BitVec 32 := 0x0002
def MAP_ANONYMOUS : BitVec 32 := 0x0004
def MAP_FIXED : BitVec 32 := 0x0008
def MAP_GROWSUP : BitVec 32 := 0x0010

/-- `flags & flag`, as a condition. -/
def has (flags flag : BitVec 32) : Bool :=
  flags &&& flag != 0

/-! ### Data -/

/-- `struct mappingEntry`; `isValid` is `true` where the code has `0` and `false` where it has `-1`. -/
structure MapEntry where
  flags : BitVec 32
  startingVirtualAddress : ℕ
  numPages : ℕ
  fd : ℤ
  isValid : Bool
  guardPageVirtualAddress : ℕ
deriving DecidableEq

/-- The values that `fork` and `munmap` store in an unused entry. -/
def MapEntry.unused : MapEntry := ⟨0, 0, 0, 0, false, 0⟩

/-- A page directory.  `kvm` are the pages of the directory itself and of the page tables of the kernel
half; `table` and `pte` describe the user half.  A present entry lies in a page table. -/
structure PgDir where
  kvm : List ℕ
  table : ℕ → Option ℕ
  pte : ℕ → Option ℕ
  backed : ∀ va pa, pte va = some pa → (table (va / 1024)).isSome

inductive FileType
  | FD_NONE | FD_PIPE | FD_INODE
deriving DecidableEq

/-- `struct file`; the inode is given by its number. -/
structure File where
  type : FileType
  ref : ℕ
  readable : Bool
  writable : Bool
  ip : ℕ
  off : ℕ

/-- What the file functions see of an inode: a device, or an array of bytes. -/
structure Inode where
  isDev : Bool
  size : ℕ
  data : ℕ → UInt8

inductive ProcState
  | UNUSED | EMBRYO | SLEEPING | RUNNABLE | RUNNING | ZOMBIE
deriving DecidableEq

/-- `struct proc`.  `mapEntries` beyond index `NMAP` is the memory behind the array. -/
structure Proc where
  sz : ℕ
  pgdir : PgDir
  kstack : ℕ
  state : ProcState
  pid : ℕ
  parent : Option Slot
  ofile : ℕ → Option ℕ
  mapEntries : ℕ → MapEntry
  currentMappingIndex : ℕ

/-- The contents of a page. -/
abbrev Page := ℕ → UInt8

/-- The kernel.  `kernelEnd` is the first page behind the kernel image. -/
structure Kernel where
  freelist : List ℕ
  mem : ℕ → Page
  proc : Slot → Proc
  file : ℕ → File
  inode : ℕ → Inode
  nextpid : ℕ
  initproc : Slot
  kernelEnd : ℕ

/-- The ways in which a call does not come to its end: the panics, and then what C leaves undefined.  There the
kernel goes on, with what lies at address `0`, which is user memory, or behind the array; the model ends. -/
inductive Fault
  | /-- `panic("kfree")` -/ kfree
  | /-- `panic("remap")` -/ remap
  | /-- `panic("copyuvm")` -/ copyuvm
  | /-- `panic("fileread")`, `panic("filewrite")` -/ filetype
  | /-- `panic("init exiting")` -/ initExiting
  | /-- `panic("trap")`: the kernel touches a page that is not present -/ trap
  | /-- `ofile` is indexed outside `[0, NOFILE)` -/ ofileIndex
  | /-- a null `struct file *` is dereferenced -/ nullFile
  | /-- a null `pte_t *` is dereferenced -/ nullPte
  | /-- `mapEntries` is written outside `[0, NMAP)` -/ mapIndex
  | /-- an array is declared with a negative length -/ arrayLength
deriving DecidableEq

/-! ### Updates -/

def Kernel.modify (k : Kernel) (c : Slot) (f : Proc → Proc) : Kernel :=
  { k with proc := Function.update k.proc c (f (k.proc c)) }

@[simp] theorem Kernel.modify_self (k : Kernel) (c : Slot) (f : Proc → Proc) :
    (k.modify c f).proc c = f (k.proc c) :=
  Function.update_self ..

@[simp] theorem Kernel.modify_of_ne (k : Kernel) {c d : Slot} (h : d ≠ c) (f : Proc → Proc) :
    (k.modify c f).proc d = k.proc d :=
  Function.update_of_ne h ..

/-- A page of entries is put into the directory. -/
def PgDir.addTable (d : PgDir) (pdx : ℕ) (t : ℕ) : PgDir where
  kvm := d.kvm
  table := Function.update d.table pdx (some t)
  pte := d.pte
  backed := by
    intro va pa h
    by_cases hp : va / 1024 = pdx
    · rw [hp, Function.update_self]
      rfl
    · rw [Function.update_of_ne hp]
      exact d.backed va pa h

/-- An entry of an existing page table is set. -/
def PgDir.setPte (d : PgDir) (va : ℕ) (pa : ℕ) (h : (d.table (va / 1024)).isSome) : PgDir where
  kvm := d.kvm
  table := d.table
  pte := Function.update d.pte va (some pa)
  backed := by
    intro va' pa' h'
    by_cases hv : va' = va
    · rw [hv]
      exact h
    · rw [Function.update_of_ne hv] at h'
      exact d.backed va' pa' h'

/-- `*pte = 0`. -/
def PgDir.clear (d : PgDir) (va : ℕ) : PgDir where
  kvm := d.kvm
  table := d.table
  pte := Function.update d.pte va none
  backed := by
    intro va' pa' h'
    by_cases hv : va' = va
    · rw [hv, Function.update_self] at h'
      cases h'
    · rw [Function.update_of_ne hv] at h'
      exact d.backed va' pa' h'

/-! ### `kalloc.c` -/

def kalloc (freelist : List ℕ) : Option (ℕ × List ℕ) :=
  match freelist with
  | [] => none
  | r :: rest => some (r, rest)

/-- A free page: filled with ones, but for the link to the next free page in its first bytes. -/
def junk (freelist : List ℕ) : Page := fun i =>
  if i < 4 then
    match freelist with
    | [] => 0
    | next :: _ => UInt8.ofNat ((next + KERNBASE) * PGSIZE / 2 ^ (8 * i))
  else 1

/-- The pages that `kfree` accepts. -/
def Kernel.Freeable (k : Kernel) (v : ℕ) : Prop :=
  k.kernelEnd ≤ v ∧ v < PHYSTOP

instance (k : Kernel) (v : ℕ) : Decidable (k.Freeable v) := by
  unfold Kernel.Freeable
  infer_instance

def kfree (v : ℕ) (k : Kernel) : Except Fault Kernel :=
  if k.Freeable v then
    .ok { k with freelist := v :: k.freelist, mem := Function.update k.mem v (junk k.freelist) }
  else .error .kfree

/-- `kfree` on each page of a list. -/
def kfreeAll (vs : List ℕ) (k : Kernel) : Except Fault Kernel :=
  vs.foldlM (fun k v => kfree v k) k

/-! ### Page tables -/

/-- The kernel half of every page directory: the physical memory and the devices. -/
def kernelPte (va : ℕ) : Option ℕ :=
  if va - KERNBASE < PHYSTOP then some (va - KERNBASE)
  else if DEVSPACE ≤ va then some va
  else none

/-- `walkpgdir(pgdir, va, 0)`: `none` is a null pointer, `some none` an entry that is not present. -/
def walkpgdir (pgdir : PgDir) (va : ℕ) : Option (Option ℕ) :=
  if va < KERNBASE then (pgdir.table (va / 1024)).map fun _ => pgdir.pte va
  else (kernelPte va).map some

/-- `pte != 0 && (*pte & PTE_P)`. -/
def present (pgdir : PgDir) (va : ℕ) : Bool :=
  (walkpgdir pgdir va).join.isSome

/-- `mappages` for one page, with the page of entries that `walkpgdir(pgdir, va, 1)` allocates; `false`
is the result `-1`.  No caller goes beyond `KERNBASE`. -/
def mappages (pgdir : PgDir) (va : ℕ) (pa : ℕ) (freelist : List ℕ) :
    Except Fault (PgDir × List ℕ × Bool) :=
  if va ≥ KERNBASE then .error .remap
  else if h : (pgdir.table (va / 1024)).isSome then
    if (pgdir.pte va).isSome then .error .remap
    else .ok (pgdir.setPte va pa h, freelist, true)
  else
    match kalloc freelist with
    | none => .ok (pgdir, freelist, false)
    | some (t, rest) =>
      .ok ((pgdir.addTable (va / 1024) t).setPte va pa (by simp [PgDir.addTable]), rest, true)

/-- `ispamapped`: some process in use maps the page in the range of the mappings. -/
def ispamapped (pa : ℕ) (k : Kernel) : Prop :=
  ∃ p : Slot, (k.proc p).state ≠ .UNUSED ∧
    ∃ i < KERNBASE - MMAPBASE, (k.proc p).pgdir.pte (MMAPBASE + i) = some pa

instance (pa : ℕ) (k : Kernel) : Decidable (ispamapped pa k) := by
  unfold ispamapped
  infer_instance

/-- `clearpte` on the page directory of process `c`; `false` is the result `-1`.  An entry that is not
present names the physical page `0`, and so does the first one of the kernel half. -/
def clearpte (c : Slot) (va : ℕ) (k : Kernel) : Except Fault (Kernel × Bool) :=
  match walkpgdir (k.proc c).pgdir va with
  | none => .ok (k, false)
  | some pte =>
    let physicalAddress := pte.getD 0
    let k := k.modify c fun p => { p with pgdir := p.pgdir.clear va }
    if ispamapped physicalAddress k then .ok (k, true)
    else do
      let k ← kfree physicalAddress k
      return (k, true)

/-! ### The scanners of the mapping records -/

/-- The test that all scanners begin with. -/
def MapEntry.inUse (m : MapEntry) : Bool :=
  m.isValid && decide (MMAPBASE ≤ m.startingVirtualAddress) &&
    decide (m.startingVirtualAddress < KERNBASE)

/-- `isguardpage`, for the process `p` that makes the call.  The scan includes the entry at
`currentMappingIndex`. -/
def isguardpage (p : Proc) (va : ℕ) : Bool :=
  (List.range (p.currentMappingIndex + 1)).any fun i =>
    (p.mapEntries i).inUse && decide ((p.mapEntries i).guardPageVirtualAddress = va)

/-- `canallocatva` on the page directory of the calling process. -/
def canallocatva (p : Proc) (va : ℕ) (numpages : ℕ) : Bool :=
  (List.range numpages).all fun i => !isguardpage p (va + i) && !present p.pgdir (va + i)

/-- `findfreevirtualaddress`, and the loop of `sys_mmap` without `MAP_FIXED`. -/
def findfreevirtualaddress (p : Proc) (numpages : ℕ) : Option ℕ :=
  ((List.range (KERNBASE - MMAPBASE)).find? fun i => canallocatva p (MMAPBASE + i) numpages).map
    (MMAPBASE + ·)

/-- `findmappingmetadata`. -/
def findmappingmetadata (p : Proc) (va : ℕ) : Option ℕ :=
  (List.range NMAP).find? fun i =>
    (p.mapEntries i).isValid && decide ((p.mapEntries i).startingVirtualAddress = va)

/-- `mapEntries[i] = m`. -/
def setEntry (c : Slot) (i : ℕ) (m : MapEntry) (k : Kernel) : Except Fault Kernel :=
  if i < NMAP then .ok (k.modify c fun p => { p with mapEntries := Function.update p.mapEntries i m })
  else .error .mapIndex

end OperatingSystems.Vm
