import Mathlib
import OperatingSystems.Vm.Files

/-!
# `mmap`, `munmap` and the life of a process

The system calls of `sysproc.c`, and `fork`, `sbrk`, `exec`, `exit` and `wait` as far as they concern
pages, mapping records and open files.  A call is one step, though the machine has two processors and the
kernel can be preempted; the local arrays of the kernel have room on its stack.

* **`sys_mmap`**, **`sys_munmap`** — stage by stage, with every exit.
* **`copymemorymappings`** — the copy that `fork` makes of the mappings, through a window in the parent.
* **`allocuvm`**, **`deallocuvm`** — the image of a process, page by page.
* **`fork`**, **`growproc`**, **`exec`**, **`exit`**, **`wait`**, **`pagefault`**.
-/

namespace OperatingSystems.Vm

/-! ### Pages for a mapping -/

/-- `length / PGSIZE`, rounded up where there is a remainder; C divides towards zero. -/
def pagesOf (length : ℤ) : ℤ :=
  Int.tdiv length PGSIZE + if Int.tmod length PGSIZE ≠ 0 then 1 else 0

/-- The loop that allocates `n` pages after those of `got`; when the memory runs out they are all freed
again. -/
def allocPages : (n : ℕ) → (got : List ℕ) → Kernel → Except Fault (Kernel × Option (List ℕ))
  | 0, got, k => .ok (k, some got)
  | n + 1, got, k =>
    match kalloc k.freelist with
    | some (p, freelist) => allocPages n (got ++ [p]) { k with freelist }
    | none => do
      let k ← kfreeAll got k
      return (k, none)

/-- The loop that maps the pages one after the other from `va` on; `false` when one of them cannot be
mapped, and those before it stay. -/
def mapPages (pgdir : PgDir) (va : ℕ) :
    List ℕ → List ℕ → Except Fault (PgDir × List ℕ × Bool)
  | [], freelist => .ok (pgdir, freelist, true)
  | p :: ps, freelist => do
    let (pgdir, freelist, mapped) ← mappages pgdir va p freelist
    if mapped then mapPages pgdir (va + 1) ps freelist
    else return (pgdir, freelist, false)

/-! ### `sys_mmap` -/

structure MmapArgs where
  virtualAddress : ℤ
  length : ℤ
  prot : ℤ
  flags : BitVec 32
  fd : ℤ
  offset : ℤ

/-- The checks of the arguments: `PROT_READ | PROT_WRITE`, one of shared and private, offset `0` for a
file, and an aligned address for a fixed mapping. -/
def MmapArgs.valid (a : MmapArgs) : Bool :=
  decide (a.prot = 3) && (has a.flags MAP_SHARED || has a.flags MAP_PRIVATE) &&
    !(has a.flags MAP_SHARED && has a.flags MAP_PRIVATE) &&
    !(decide (a.offset ≠ 0) && !has a.flags MAP_ANONYMOUS) &&
    !(decide (Int.tmod a.virtualAddress PGSIZE ≠ 0) && has a.flags MAP_FIXED)

/-- The page of an address given as an `int`. -/
def pageOf (addr : ℤ) : ℕ :=
  (addr % 2 ^ 32).toNat / PGSIZE

/-- The address of a mapping of `n` pages: the given one if it is fixed, in bounds and free, else the
first free one. -/
def placeMapping (p : Proc) (a : MmapArgs) (n : ℕ) : Option ℕ :=
  if has a.flags MAP_FIXED then
    let va := pageOf a.virtualAddress
    if va < MMAPBASE ∨ va ≥ KERNBASE then none
    else if canallocatva p va n then some va else none
  else findfreevirtualaddress p n

/-- The guard page of a mapping that grows up must be free. -/
def guardOk (p : Proc) (a : MmapArgs) (va : ℕ) (n : ℕ) : Bool :=
  !has a.flags MAP_GROWSUP || canallocatva p (va + n) 1

/-- The file is read from its beginning into the new mapping; `false` is the exit with `-1`. -/
def readMapping (c : Slot) (a : MmapArgs) (va : ℕ) (n : ℕ) (ext : External) (k : Kernel) :
    Except Fault (Kernel × Bool) :=
  if has a.flags MAP_ANONYMOUS then .ok (k, true)
  else do
    let f ← ofileAt (k.proc c) a.fd
    let k := k.setFile f { k.file f with off := 0 }
    let (k, buffer) ← fileread f (n * PGSIZE) ext k
    match buffer with
    | none => return (k, false)
    | some bytes =>
      let k ← storeBytes c (va * PGSIZE) bytes k
      return (k, true)

/-- The record of a new mapping. -/
def MmapArgs.entry (a : MmapArgs) (va : ℕ) (n : ℕ) : MapEntry where
  flags := a.flags
  startingVirtualAddress := va
  numPages := n
  fd := a.fd
  isValid := true
  guardPageVirtualAddress := if has a.flags MAP_GROWSUP then va + n else 0

/-- `sys_mmap` of process `c`; `none` is `(void*)-1`. -/
def sys_mmap (c : Slot) (a : MmapArgs) (ext : External) (k : Kernel) :
    Except Fault (Kernel × Option ℕ) :=
  if !a.valid then .ok (k, none)
  else if pagesOf a.length < 0 then .error .arrayLength
  else do
    let n := (pagesOf a.length).toNat
    let (k, pages) ← allocPages n [] k
    match pages with
    | none => return (k, none)
    | some physicalPages =>
      match placeMapping (k.proc c) a n with
      | none => return (k, none)
      | some va =>
        if !guardOk (k.proc c) a va n then return (k, none)
        else
          let (pgdir, freelist, mapped) ← mapPages (k.proc c).pgdir va physicalPages k.freelist
          let k := { k with freelist }.modify c fun p => { p with pgdir }
          if !mapped then return (k, none)
          else
            let (k, readOk) ← readMapping c a va n ext k
            if !readOk then return (k, none)
            else
              let k ← setEntry c (k.proc c).currentMappingIndex (a.entry va n) k
              return (k.modify c fun p =>
                { p with currentMappingIndex := p.currentMappingIndex + 1 }, some va)

/-! ### `sys_munmap` -/

/-- The loop that clears `n` pages from `va` on; `false` when a page of entries is missing. -/
def clearPages (c : Slot) : (va : ℕ) → (n : ℕ) → Kernel → Except Fault (Kernel × Bool)
  | _, 0, k => .ok (k, true)
  | va, n + 1, k => do
    let (k, cleared) ← clearpte c va k
    if cleared then clearPages c (va + 1) n k
    else return (k, false)

/-- The mapping is written back to the file from its beginning; `false` is the exit with `-1`. -/
def writeMapping (c : Slot) (m : MapEntry) (va : ℕ) (ext : External) (k : Kernel) :
    Except Fault (Kernel × Bool) :=
  if has m.flags MAP_ANONYMOUS || has m.flags MAP_PRIVATE then .ok (k, true)
  else do
    let f ← ofileAt (k.proc c) m.fd
    let k := k.setFile f { k.file f with off := 0 }
    filewrite c f (va * PGSIZE) (m.numPages * PGSIZE) ext k

/-- `sys_munmap` of process `c`; `false` is `-1`. -/
def sys_munmap (c : Slot) (virtualAddress length : ℤ) (ext : External) (k : Kernel) :
    Except Fault (Kernel × Bool) :=
  if Int.tmod virtualAddress PGSIZE ≠ 0 then .ok (k, false)
  else
    let va := pageOf virtualAddress
    match findmappingmetadata (k.proc c) va with
    | none => .ok (k, false)
    | some i => do
      let (k, written) ← writeMapping c ((k.proc c).mapEntries i) va ext k
      if !written then return (k, false)
      else
        let (k, cleared) ← clearPages c va (pagesOf length).toNat k
        if !cleared then return (k, false)
        else
          let k ← setEntry c i .unused k
          return (k, true)

/-! ### Freeing a page directory -/

/-- `freevm`: every present page of the user half, the pages of entries, and the directory. -/
def PgDir.pages (d : PgDir) : List ℕ :=
  (List.range KERNBASE).filterMap d.pte ++ (List.range (KERNBASE / 1024)).filterMap d.table ++ d.kvm

def freevm (d : PgDir) (k : Kernel) : Except Fault Kernel :=
  kfreeAll d.pages k

/-! ### Building a page directory -/

/-- The pages of the directory and of the page tables for the kernel half: 56 for the physical memory
and 8 for the devices. -/
def KVMPAGES : ℕ := 1 + 56 + 8

/-- `setupkvm`; `none` when the memory has run out, with everything freed again. -/
def setupkvm (k : Kernel) : Except Fault (Kernel × Option PgDir) := do
  let (k, pages) ← allocPages KVMPAGES [] k
  match pages with
  | none => return (k, none)
  | some kvm => return (k, some ⟨kvm, fun _ => none, fun _ => none, by intro _ _ h; cases h⟩)

/-- The pages of `[0, sz)` one by one, each a fresh page with the given contents; `none` when the memory
has run out, with everything freed again. -/
def buildImage (d : PgDir) (contents : ℕ → Page) :
    (va n : ℕ) → Kernel → Except Fault (Kernel × Option PgDir)
  | _, 0, k => .ok (k, some d)
  | va, n + 1, k =>
    match kalloc k.freelist with
    | none => do
      let k ← freevm d k
      return (k, none)
    | some (mem, freelist) => do
      let k := { k with freelist, mem := Function.update k.mem mem (contents va) }
      let (d, freelist, mapped) ← mappages d va mem k.freelist
      let k := { k with freelist }
      if mapped then buildImage d contents (va + 1) n k
      else
        let k ← kfree mem k
        let k ← freevm d k
        return (k, none)

/-- The number of pages of `[0, sz)`. -/
def imagePages (sz : ℕ) : ℕ :=
  (sz + PGSIZE - 1) / PGSIZE

/-- `copyuvm`: a copy of `[0, sz)`; it panics where the parent has no page. -/
def copyuvm (pgdir : PgDir) (sz : ℕ) (k : Kernel) : Except Fault (Kernel × Option PgDir) := do
  let (k, d) ← setupkvm k
  match d with
  | none => return (k, none)
  | some d =>
    if (List.range (imagePages sz)).all fun i => present pgdir i then
      buildImage d (fun va => k.mem ((pgdir.pte va).getD 0)) 0 (imagePages sz) k
    else .error .copyuvm

/-! ### The size of a process -/

/-- The loop of `deallocuvm`: the present pages are freed, and their entries cleared. -/
def deallocPages (d : PgDir) : List ℕ → Kernel → Except Fault (Kernel × PgDir)
  | [], k => .ok (k, d)
  | va :: vas, k =>
    match d.pte va with
    | none => deallocPages d vas k
    | some pa => do
      let k ← kfree pa k
      deallocPages (d.clear va) vas k

/-- `deallocuvm`, from the address `oldsz` down to `newsz`, below `KERNBASE`; with the new size. -/
def deallocuvm (d : PgDir) (oldsz newsz : ℕ) (k : Kernel) : Except Fault (Kernel × PgDir × ℕ) :=
  if newsz ≥ oldsz then .ok (k, d, oldsz)
  else do
    let (k, d) ← deallocPages d (List.range' (imagePages newsz) (imagePages oldsz - imagePages newsz)) k
    return (k, d, newsz)

/-- The loop of `allocuvm`: fresh pages one by one; `false` when the memory has run out, with everything
from `oldsz` to `newsz` freed. -/
def allocImage (d : PgDir) (contents : ℕ → Page) (oldsz newsz : ℕ) :
    (va n : ℕ) → Kernel → Except Fault (Kernel × PgDir × Bool)
  | _, 0, k => .ok (k, d, true)
  | va, n + 1, k =>
    match kalloc k.freelist with
    | none => do
      let (k, d, _) ← deallocuvm d newsz oldsz k
      return (k, d, false)
    | some (mem, freelist) => do
      let k := { k with freelist, mem := Function.update k.mem mem (contents va) }
      let (d, freelist, mapped) ← mappages d va mem k.freelist
      let k := { k with freelist }
      if mapped then allocImage d contents oldsz newsz (va + 1) n k
      else
        let (k, d, _) ← deallocuvm d newsz oldsz k
        let k ← kfree mem k
        return (k, d, false)

/-- `allocuvm`, from the address `oldsz` up to `newsz`; with the new size, or `0` for a failure. -/
def allocuvm (d : PgDir) (contents : ℕ → Page) (oldsz newsz : ℕ) (k : Kernel) :
    Except Fault (Kernel × PgDir × ℕ) :=
  if newsz ≥ KERNBASE * PGSIZE then .ok (k, d, 0)
  else if newsz < oldsz then .ok (k, d, oldsz)
  else do
    let (k, d, done) ← allocImage d contents oldsz newsz (imagePages oldsz)
      (imagePages newsz - imagePages oldsz) k
    return (k, d, if done then newsz else 0)

/-! ### `copymemorymappings` -/

/-- `memmove` of a whole page through the parent's page table, from `va` to `temp`. -/
def copyPage (parent : Slot) (va temp : ℕ) (k : Kernel) : Except Fault Kernel := do
  let (k, bytes) ← loadBytes parent (va * PGSIZE) PGSIZE k
  storeBytes parent (temp * PGSIZE) bytes k

/-- The loop over the pages of a private mapping: map the new page into the child and into the window of
the parent, copy, and clear the window. -/
def copyPrivate (parent child : Slot) :
    (va temp : ℕ) → List ℕ → Kernel → Except Fault (Kernel × Bool)
  | _, _, [], k => .ok (k, true)
  | va, temp, p :: ps, k => do
    let (pgdir, freelist, mapped) ← mappages (k.proc child).pgdir va p k.freelist
    let k := { k with freelist }.modify child fun q => { q with pgdir }
    if !mapped then return (k, false)
    else
      let (pgdir, freelist, mapped) ← mappages (k.proc parent).pgdir temp p k.freelist
      let k := { k with freelist }.modify parent fun q => { q with pgdir }
      if !mapped then return (k, false)
      else
        let k ← copyPage parent va temp k
        let k := k.modify parent fun q => { q with pgdir := q.pgdir.clear temp }
        copyPrivate parent child (va + 1) (temp + 1) ps k

/-- The loop over the pages of a shared mapping: the child maps what the parent's entry names, page `0`
where it is not present.  Where there is no page table, the code takes a null pointer for the entry; that is
undefined, and on the machine the kernel reads the user memory at address `0` and goes on. -/
def copyShared (parent child : Slot) : (va : ℕ) → (n : ℕ) → Kernel → Except Fault (Kernel × Bool)
  | _, 0, k => .ok (k, true)
  | va, n + 1, k =>
    match walkpgdir (k.proc parent).pgdir va with
    | none => .error .nullPte
    | some pte => do
      let (pgdir, freelist, mapped) ← mappages (k.proc child).pgdir va (pte.getD 0) k.freelist
      let k := { k with freelist }.modify child fun q => { q with pgdir }
      if mapped then copyShared parent child (va + 1) n k
      else return (k, false)

/-- The pages of one mapping; `false` is the exit with `-1`. -/
def copyMapping (parent child : Slot) (m : MapEntry) (k : Kernel) : Except Fault (Kernel × Bool) :=
  if has m.flags MAP_PRIVATE then do
    let (k, pages) ← allocPages m.numPages [] k
    match pages with
    | none => return (k, false)
    | some physicalPages =>
      match findfreevirtualaddress (k.proc parent) m.numPages with
      | none => return (k, false)
      | some temp => copyPrivate parent child m.startingVirtualAddress temp physicalPages k
  else if has m.flags MAP_SHARED then
    copyShared parent child m.startingVirtualAddress m.numPages k
  else .ok (k, true)

/-- The loop of `copymemorymappings` over the records of the parent: the record is copied, then its
pages; `false` is the result `-1`. -/
def copyEntries (parent child : Slot) : List MapEntry → Kernel → Except Fault (Kernel × Bool)
  | [], k => .ok (k, true)
  | m :: ms, k =>
    if m.inUse then do
      let k ← setEntry child (k.proc child).currentMappingIndex m k
      let k := k.modify child fun p => { p with currentMappingIndex := p.currentMappingIndex + 1 }
      let (k, copied) ← copyMapping parent child m k
      if copied then copyEntries parent child ms k
      else return (k, false)
    else copyEntries parent child ms k

/-- The entries that the scanners of process `p` look at. -/
def scanned (p : Proc) : List MapEntry :=
  (List.range (p.currentMappingIndex + 1)).map p.mapEntries

def copymemorymappings (parent child : Slot) (k : Kernel) : Except Fault (Kernel × Bool) :=
  copyEntries parent child (scanned (k.proc parent)) k

/-! ### Processes -/

/-- The first slot of the table that meets the condition. -/
def firstSlot (cond : Slot → Bool) : Option Slot :=
  (List.finRange NPROC).find? cond

/-- The descriptors of the parent are duplicated for the child. -/
def dupFiles (parent : Slot) (k : Kernel) : Kernel :=
  { k with file := fun f => { k.file f with
      ref := (k.file f).ref + (List.range NOFILE).countP fun fd => (k.proc parent).ofile fd = some f } }

/-- `fork` of process `c`: the slot and the pid of the child, or `none` for `-1`.  The result of
`copymemorymappings` is not looked at. -/
def fork (c : Slot) (k : Kernel) : Except Fault (Kernel × Option (Slot × ℕ)) :=
  match firstSlot fun p => (k.proc p).state = .UNUSED with
  | none => .ok (k, none)
  | some np =>
    let pid := k.nextpid
    let k := { k.modify np fun p => { p with pid } with nextpid := pid + 1 }
    match kalloc k.freelist with
    | none => .ok (k, none)
    | some (kstack, freelist) => do
      let k := { k with freelist }
      let (k, d) ← copyuvm (k.proc c).pgdir (k.proc c).sz k
      match d with
      | none =>
        let k ← kfree kstack k
        return (k, none)
      | some pgdir =>
        let k := (dupFiles c k).modify np fun p => { p with
          kstack := kstack
          pgdir := pgdir
          sz := (k.proc c).sz
          parent := some c
          ofile := fun fd => ((k.proc c).ofile fd).or (p.ofile fd)
          state := .RUNNABLE
          currentMappingIndex := 0
          mapEntries := fun i => if i < NMAP then .unused else p.mapEntries i }
        let (k, _) ← copymemorymappings c np k
        return (k, some (np, pid))

/-- `growproc` of process `c`, for `sbrk(n)`; `false` is `-1`.  A new size of `0` counts as a failure. -/
def growproc (c : Slot) (n : ℤ) (k : Kernel) : Except Fault (Kernel × Bool) :=
  let sz := (k.proc c).sz
  let newsz := ((sz + n) % 2 ^ 32).toNat
  if n = 0 then .ok (k, true)
  else do
    let (k, pgdir, sz) ←
      if 0 < n then allocuvm (k.proc c).pgdir (fun _ _ => 0) sz newsz k
      else deallocuvm (k.proc c).pgdir sz newsz k
    let k := k.modify c fun p => { p with pgdir }
    if sz = 0 then return (k, false)
    else return (k.modify c fun p => { p with sz }, true)

/-- What `exec` finds in the file: the end of each segment, or `none` for one that it cannot load, the
contents of the pages, and whether the arguments can be copied onto the stack. -/
structure Program where
  segments : List (Option ℕ)
  contents : ℕ → Page
  args : Bool

/-- The loop over the segments; with the size, or `none` for a failure. -/
def loadSegments (contents : ℕ → Page) (d : PgDir) (sz : ℕ) :
    List (Option ℕ) → Kernel → Except Fault (Kernel × PgDir × Option ℕ)
  | [], k => .ok (k, d, some sz)
  | none :: _, k => .ok (k, d, none)
  | some newsz :: segments, k => do
    let (k, d, sz) ← allocuvm d contents sz newsz k
    if sz = 0 then return (k, d, none)
    else loadSegments contents d sz segments k

/-- `exec` of process `c` with a file that is a program; `false` is `-1`.  The mapping records stay. -/
def exec (c : Slot) (program : Program) (k : Kernel) : Except Fault (Kernel × Bool) := do
  let (k, d) ← setupkvm k
  match d with
  | none => return (k, false)
  | some d =>
    let (k, d, sz) ← loadSegments program.contents d 0 program.segments k
    match sz with
    | none =>
      let k ← freevm d k
      return (k, false)
    | some sz =>
      let sz := imagePages sz * PGSIZE
      let (k, pgdir, sz) ← allocuvm d program.contents sz (sz + 2 * PGSIZE) k
      if sz = 0 || !program.args then
        let k ← freevm pgdir k
        return (k, false)
      else
        let oldpgdir := (k.proc c).pgdir
        let k := k.modify c fun p => { p with pgdir, sz }
        let k ← freevm oldpgdir k
        return (k, true)

/-- The loop of `exit` that clears every present page in the range of the mappings. -/
def clearMappings (c : Slot) : List ℕ → Kernel → Except Fault Kernel
  | [], k => .ok k
  | va :: vas, k =>
    if present (k.proc c).pgdir va then do
      let (k, _) ← clearpte c va k
      clearMappings c vas k
    else clearMappings c vas k

/-- `exit` of process `c`. -/
def exit (c : Slot) (k : Kernel) : Except Fault Kernel :=
  if c = k.initproc then .error .initExiting
  else do
    let k := (List.range NOFILE).foldl (fun k fd =>
      match (k.proc c).ofile fd with
      | some f => fileclose f (setOfile c fd none k)
      | none => k) k
    let k ← clearMappings c ((List.range (KERNBASE - MMAPBASE)).map (MMAPBASE + ·)) k
    return { k with
      proc := fun p =>
        if p = c then { k.proc p with state := .ZOMBIE }
        else if (k.proc p).parent = some c then { k.proc p with parent := some k.initproc }
        else k.proc p }

/-- `wait` of process `c`, when it finds an exited child: the slot that is free again. -/
def wait (c : Slot) (k : Kernel) : Except Fault (Kernel × Option Slot) :=
  match firstSlot fun p => (k.proc p).parent = some c ∧ (k.proc p).state = .ZOMBIE with
  | none => .ok (k, none)
  | some p => do
    let k ← kfree (k.proc p).kstack k
    let k ← freevm (k.proc p).pgdir k
    return (k.modify p fun q => { q with pid := 0, parent := none, state := .UNUSED }, some p)

/-- The page-fault handler for process `c`, with the fault in user mode at an address of the page `va`:
without growth the process is killed and exits. -/
def pagefault (c : Slot) (va : ℕ) (k : Kernel) : Except Fault Kernel := do
  let (k, grown) ← cangrowup c va k
  if grown then return k
  else exit c k

end OperatingSystems.Vm
