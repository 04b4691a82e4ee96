import OperatingSystems.Vm.Unchanged

/-!
# What a shared mapping of a file changes in it

Runs of stores into a shared mapping of a regular file, and of growths on page faults, from the `mmap` on
that has read the file.  `munmap` then writes all pages of the mapping, from the beginning of the file on.

* **`State`** — beside the kernel, the byte stored last at each offset, and the byte found there first.
* **`Holds`** — the mapping holds what was stored, else what was found; what was asked for was read.
* **`Exact`** — the file has changed only where something was stored.
* **`shared_exact_iff`** — when it has: the pages of the mapping end inside the file, and what growth has
  found and nobody stored over is the file's own.
-/

namespace OperatingSystems.Vm.SharedFile

open GuardedRuns Outcomes WriteBack

/-! ### Runs -/

/-- The kernel; the record, the first page and the open file of the mapping; the file before, and the
number of pages asked for; at each offset the byte stored last, and the one found when its page was mapped. -/
structure State where
  kernel : Kernel
  entry : ℕ
  va : ℕ
  file : ℕ
  before : Inode
  asked : ℕ
  stored : ℕ → Option UInt8
  found : ℕ → UInt8

/-- A byte is stored at an offset of the mapping; a fault at a page is answered by growth. -/
inductive Use
  | store (i : ℕ) (b : UInt8)
  | grow (page : ℕ)

variable {c : Slot} {s s' : State} {k k' k₁ : Kernel} {a : MmapArgs} {ext : External}

/-- The number of pages of the mapping. -/
def State.pages (c : Slot) (s : State) : ℕ :=
  ((s.kernel.proc c).mapEntries s.entry).numPages

/-- The byte that kernel `k` has at an offset of the mapping. -/
def State.byte (s : State) (c : Slot) (k : Kernel) (i : ℕ) : Option UInt8 :=
  k.byteAt c (s.va * PGSIZE + i)

inductive Step (c : Slot) : State → Use → State → Prop
  | store {s : State} {i : ℕ} {b : UInt8} {k' : Kernel} (hi : i < s.pages c * PGSIZE)
      (hrun : storeByte c (s.va * PGSIZE + i) b s.kernel = .ok k') :
      Step c s (.store i b) { s with kernel := k', stored := Function.update s.stored i (some b) }
  | grow {s : State} {page : ℕ} {k' : Kernel} (hrun : cangrowup c page s.kernel = .ok (k', true)) :
      Step c s (.grow page) { s with
        kernel := k'
        found := fun i => if i < s.pages c * PGSIZE then s.found i else (s.byte c k' i).getD 0 }

/-- The arguments ask for a shared mapping of open file `f`, which stands for a regular file. -/
structure Shares (k : Kernel) (c : Slot) (a : MmapArgs) (f : ℕ) : Prop where
  shared : has a.flags MAP_SHARED = true
  backed : has a.flags MAP_ANONYMOUS = false
  length : 0 < a.length
  file : ofileAt (k.proc c) a.fd = .ok f
  type : (k.file f).type = .FD_INODE
  regular : (k.inode (k.file f).ip).isDev = false

/-- `mmap` has just returned the mapping. -/
def init (c : Slot) (s : State) : Prop :=
  ∃ k a ext, Shares k c a s.file ∧ sys_mmap c a ext k = .ok (s.kernel, some s.va) ∧
    s.entry = (k.proc c).currentMappingIndex ∧ s.before = k.inode (k.file s.file).ip ∧
    s.asked = a.pages ∧ s.stored = (fun _ => none) ∧ s.found = fun i => (s.byte c s.kernel i).getD 0

/-- The file has its length, the bytes that were stored, and its own everywhere else. -/
def Exact (s : State) (k' : Kernel) : Prop :=
  (k'.inode (s.kernel.file s.file).ip).size = s.before.size ∧
    ∀ i < s.before.size, (k'.inode (s.kernel.file s.file).ip).data i =
      (s.stored i).getD (s.before.data i)

/-- No page is mapped at two places of the mapping. -/
def Distinct (c : Slot) (s : State) : Prop :=
  ∀ q < s.pages c, ∀ q' < s.pages c,
    (s.kernel.proc c).pgdir.pte (s.va + q) = (s.kernel.proc c).pgdir.pte (s.va + q') → q = q'

/-- Every page of the mapping is memory: each growth has found a page. -/
def OnMemory (c : Slot) (s : State) : Prop :=
  ∀ q < s.pages c, (s.kernel.proc c).pgdir.pte (s.va + q) ≠ some nullPage

/-- The pages of the mapping end inside the file. -/
def Room (c : Slot) (s : State) : Prop :=
  s.pages c * PGSIZE ≤ s.before.size

/-- What growth has found, and nobody stored over, is what the file has there. -/
def Filled (c : Slot) (s : State) : Prop :=
  ∀ i, s.asked * PGSIZE ≤ i → i < s.pages c * PGSIZE → s.stored i = none →
    s.found i = s.before.data i

/-! ### The invariant -/

structure Holds (c : Slot) (s : State) : Prop where
  type : (s.kernel.file s.file).type = .FD_INODE
  inode : s.kernel.inode (s.kernel.file s.file).ip = s.before
  regular : s.before.isDev = false
  back : toFile ((s.kernel.proc c).mapEntries s.entry) = true
  file : ofileAt (s.kernel.proc c) ((s.kernel.proc c).mapEntries s.entry).fd = .ok s.file
  base : ((s.kernel.proc c).mapEntries s.entry).startingVirtualAddress = s.va
  asked : s.asked ≤ s.pages c
  present : ∀ q < s.pages c, ((s.kernel.proc c).pgdir.pte (s.va + q)).isSome
  fresh : ∀ i, s.pages c * PGSIZE ≤ i → s.stored i = none
  bytes : Distinct c s → ∀ i < s.pages c * PGSIZE,
    s.byte c s.kernel i = some ((s.stored i).getD (s.found i))
  read : Distinct c s → ∀ i < s.asked * PGSIZE, i < s.before.size → s.found i = s.before.data i

theorem page_of_offset (va i : ℕ) : (va * PGSIZE + i) / PGSIZE = va + i / PGSIZE := by
  rw [Nat.add_comm, Nat.add_mul_div_right _ _ (by decide), Nat.add_comm]

theorem page_lt_iff {i n : ℕ} : i / PGSIZE < n ↔ i < n * PGSIZE :=
  Nat.div_lt_iff_lt_mul (by decide)

theorem Holds.backed (h : Holds c s) : s.kernel.Backed c (s.va * PGSIZE) (s.pages c * PGSIZE) := by
  intro i hi
  rw [page_of_offset]
  exact h.present _ (page_lt_iff.mpr hi)

/-! ### Stores -/

theorem Holds.store (h : Holds c s) {i : ℕ} {b : UInt8} (hi : i < s.pages c * PGSIZE)
    (hrun : storeByte c (s.va * PGSIZE + i) b s.kernel = .ok k') :
    Holds c { s with kernel := k', stored := Function.update s.stored i (some b) } := by
  obtain ⟨pa, hpa⟩ := Option.isSome_iff_exists.mp (h.backed i hi)
  rw [storeByte_present hpa] at hrun
  cases hrun
  refine ⟨h.type, h.inode, h.regular, h.back, h.file, h.base, h.asked, h.present, ?_, ?_, h.read⟩
  · intro j hj
    have hne : j ≠ i := by
      rintro rfl
      exact absurd hi (not_lt.mpr hj)
    show Function.update s.stored i (some b) j = none
    rw [Function.update_of_ne hne]
    exact h.fresh j hj
  · intro hdistinct j hj
    have hold : s.kernel.byteAt c (s.va * PGSIZE + j) = some ((s.stored j).getD (s.found j)) :=
      h.bytes hdistinct j hj
    show Kernel.byteAt _ c (s.va * PGSIZE + j) = some ((Function.update s.stored i (some b) j).getD _)
    rw [byteAt_store hpa, hold]
    · by_cases hji : j = i
      · rw [hji, if_pos rfl, Function.update_self]
        rfl
      · rw [if_neg (by omega), Function.update_of_ne hji]
    · intro hsame
      rw [page_of_offset, page_of_offset] at hsame ⊢
      exact congrArg (s.va + ·)
        (hdistinct _ (page_lt_iff.mpr hi) _ (page_lt_iff.mpr hj) hsame)

/-! ### Growth -/

/-- The kernel after growth, as the mapping sees it: another mapping has grown, or this one by a page. -/
theorem grow_cases {page : ℕ} (hrun : cangrowup c page s.kernel = .ok (k', true)) :
    k'.file = s.kernel.file ∧ k'.inode = s.kernel.inode ∧ k'.mem = s.kernel.mem ∧
      (k'.proc c).ofile = (s.kernel.proc c).ofile ∧ (s.kernel.proc c).pgdir.pte page = none ∧
      ((k'.proc c).pgdir.pte page).isSome ∧
      (∀ x, x ≠ page → (k'.proc c).pgdir.pte x = (s.kernel.proc c).pgdir.pte x) ∧
      ((k'.proc c).mapEntries s.entry = (s.kernel.proc c).mapEntries s.entry ∨
        page = ((s.kernel.proc c).mapEntries s.entry).startingVirtualAddress + s.pages c ∧
          (k'.proc c).mapEntries s.entry = ((s.kernel.proc c).mapEntries s.entry).grown) := by
  obtain ⟨hb, -⟩ | ⟨i, -, hinto, pa, fl, -, ⟨hb, -⟩ | ⟨-, -, -, hnone, d, fl', hmapped, rfl⟩⟩ :=
    cangrowup_ok hrun
  · cases hb
  · cases hb
  · have hproc : ((s.kernel.withDir c d fl' s.kernel.mem).withEntry c i
        ((s.kernel.proc c).mapEntries i).grown).proc c = { s.kernel.proc c with
          pgdir := d
          mapEntries := Function.update (s.kernel.proc c).mapEntries i
            ((s.kernel.proc c).mapEntries i).grown } := by
      unfold Kernel.withEntry
      rw [Kernel.modify_self, Kernel.withDir_self_proc]
    rw [hproc]
    refine ⟨rfl, rfl, rfl, rfl, hnone, ?_, ?_, ?_⟩
    · rw [hmapped.pte, if_pos ⟨le_rfl, Nat.lt_succ_self page⟩, Nat.sub_self]
      rfl
    · intro x hx
      refine (hmapped.pte x).trans (if_neg ?_)
      rw [List.length_singleton]
      omega
    · by_cases hi : s.entry = i
      · subst hi
        refine .inr ⟨(growsInto_iff.mp hinto).2.2.1, ?_⟩
        exact Function.update_self ..
      · exact .inl (Function.update_of_ne hi ..)

theorem Holds.grow (h : Holds c s) {page : ℕ} (hrun : cangrowup c page s.kernel = .ok (k', true)) :
    Holds c { s with
      kernel := k'
      found := fun i => if i < s.pages c * PGSIZE then s.found i else (s.byte c k' i).getD 0 } := by
  obtain ⟨hfile, hinode, hmem, hofile, hnone, hsome, hother, hentry⟩ := grow_cases hrun
  have hle : s.pages c ≤ ((k'.proc c).mapEntries s.entry).numPages := by
    rcases hentry with he | ⟨-, he⟩
    · rw [he]
      exact le_rfl
    · rw [he]
      exact Nat.le_succ _
  -- the page was not present, so it is none of those that the mapping had
  have hkept : ∀ q < s.pages c,
      (k'.proc c).pgdir.pte (s.va + q) = (s.kernel.proc c).pgdir.pte (s.va + q) := by
    intro q hq
    refine hother _ ?_
    rintro rfl
    have hpresent := h.present q hq
    rw [hnone] at hpresent
    cases hpresent
  have hbyte : ∀ i < s.pages c * PGSIZE, s.byte c k' i = s.byte c s.kernel i := by
    intro i hi
    unfold State.byte Kernel.byteAt
    rw [page_of_offset, hkept _ (page_lt_iff.mpr hi), hmem]
  have hpresent : ∀ q < ((k'.proc c).mapEntries s.entry).numPages,
      ((k'.proc c).pgdir.pte (s.va + q)).isSome := by
    intro q hq
    by_cases hlt : q < s.pages c
    · rw [hkept q hlt]
      exact h.present q hlt
    · rcases hentry with he | ⟨rfl, he⟩
      · rw [he] at hq
        exact absurd hq hlt
      · rw [he] at hq
        have heq : q = s.pages c := by
          have hq' : q < s.pages c + 1 := hq
          omega
        rw [heq, ← h.base]
        exact hsome
  have hdistinct : (∀ q < ((k'.proc c).mapEntries s.entry).numPages,
      ∀ q' < ((k'.proc c).mapEntries s.entry).numPages,
        (k'.proc c).pgdir.pte (s.va + q) = (k'.proc c).pgdir.pte (s.va + q') → q = q') →
      Distinct c s := by
    intro hall q hq q' hq' hsame
    refine hall q (hq.trans_le hle) q' (hq'.trans_le hle) ?_
    rw [hkept q hq, hkept q' hq', hsame]
  have hsame : ((k'.proc c).mapEntries s.entry).flags = ((s.kernel.proc c).mapEntries s.entry).flags ∧
      ((k'.proc c).mapEntries s.entry).fd = ((s.kernel.proc c).mapEntries s.entry).fd ∧
      ((k'.proc c).mapEntries s.entry).startingVirtualAddress = s.va := by
    rw [← h.base]
    rcases hentry with he | ⟨-, he⟩ <;> rw [he] <;> exact ⟨rfl, rfl, rfl⟩
  refine ⟨?_, ?_, h.regular, ?_, ?_, hsame.2.2, h.asked.trans hle, hpresent, ?_, ?_, ?_⟩
  · dsimp only
    rw [hfile]
    exact h.type
  · dsimp only
    rw [hfile, hinode]
    exact h.inode
  · dsimp only
    rw [toFile, hsame.1]
    exact h.back
  · dsimp only
    have hopen := ofileAt_eq_ok.mp h.file
    rw [ofileAt_eq_ok, hofile, hsame.2.1]
    exact hopen
  · intro i hi
    exact h.fresh i ((Nat.mul_le_mul_right _ hle).trans hi)
  · intro hd i hi
    show s.byte c k' i = some ((s.stored i).getD (if _ then _ else _))
    by_cases hlt : i < s.pages c * PGSIZE
    · rw [if_pos hlt, hbyte i hlt]
      exact h.bytes (hdistinct hd) i hlt
    · have hpage := hpresent _ (page_lt_iff.mpr hi)
      obtain ⟨pa, hpa⟩ := Option.isSome_iff_exists.mp hpage
      rw [if_neg hlt, h.fresh i (not_lt.mp hlt)]
      unfold State.byte
      rw [byteAt_of_pte (by rw [page_of_offset]; exact hpa)]
      rfl
  · intro hd i hi hsize
    show (if i < s.pages c * PGSIZE then s.found i else _) = s.before.data i
    rw [if_pos (hi.trans_le (Nat.mul_le_mul_right _ h.asked))]
    exact h.read (hdistinct hd) i hi hsize

/-! ### `mmap` -/

/-- What `mmap` reads of the file, and stores. -/
theorem readMapping_stores {va n f : ℕ} (hshares : Shares k c a f)
    (h : readMapping c a va n ext k = .ok (k', true)) :
    ∃ k₁ bytes, k₁.proc = k.proc ∧ k₁.mem = k.mem ∧
      bytes = (List.range (min (n * PGSIZE) (k.inode (k.file f).ip).size)).map
        (k.inode (k.file f).ip).data ∧
      storeBytes c (va * PGSIZE) bytes k₁ = .ok k' := by
  unfold readMapping at h
  rw [if_neg (by rw [hshares.backed]; decide), hshares.file, ok_bind] at h
  dsimp only at h
  have hself : (k.setFile f { k.file f with off := 0 }).file f = { k.file f with off := 0 } :=
    setFile_self ..
  obtain ⟨⟨k₁, buffer⟩, h₁, h₂⟩ := bind_eq_ok h
  cases buffer with
  | none => cases h₂
  | some bytes =>
    have hreadable : (k.file f).readable = true := by
      by_contra hno
      unfold fileread at h₁
      dsimp only at h₁
      rw [hself, if_pos (Bool.eq_false_of_not_eq_true hno)] at h₁
      cases h₁
    rw [fileread_regular (by rw [hself]; exact hshares.type) (by rw [hself]; exact hreadable)
      (by rw [hself]; exact hshares.regular), hself, Except.ok.injEq, Prod.mk.injEq] at h₁
    obtain ⟨hk₁, hbytes⟩ := h₁
    unfold readi at hbytes
    rw [if_neg (Nat.not_lt_zero _), Option.some.injEq] at hbytes
    obtain ⟨k₂, h₃, h₄⟩ := bind_eq_ok h₂
    cases h₄
    refine ⟨k₁, bytes, by rw [← hk₁]; rfl, by rw [← hk₁]; rfl, ?_, h₃⟩
    rw [← hbytes]
    dsimp only
    simp only [Nat.zero_add, Nat.sub_zero]
    rfl

/-- What `mmap` has put into the mapping, where no page of it is mapped twice. -/
theorem readMapping_bytes {d : PgDir} {ps fl fl' : List ℕ} {va f : ℕ}
    (hmapped : Mapped d (k.proc c).pgdir va ps fl fl') (hshares : Shares k c a f)
    (hdistinct : ∀ q < ps.length, ∀ q' < ps.length,
      (k.proc c).pgdir.pte (va + q) = (k.proc c).pgdir.pte (va + q') → q = q')
    (h : readMapping c a va ps.length ext k = .ok (k', true)) {i : ℕ} (hi : i < ps.length * PGSIZE)
    (hsize : i < (k.inode (k.file f).ip).size) :
    k'.byteAt c (va * PGSIZE + i) = some ((k.inode (k.file f).ip).data i) := by
  obtain ⟨k₁, bytes, hproc, -, hread, hstore⟩ := readMapping_stores hshares h
  have hlen : bytes.length = min (ps.length * PGSIZE) (k.inode (k.file f).ip).size := by
    rw [hread, List.length_map, List.length_range]
  have hbacked : k₁.Backed c (va * PGSIZE) bytes.length := by
    unfold Kernel.Backed
    rw [hproc]
    exact hmapped.backed (le_refl _) (by rw [hlen, Nat.add_mul]; omega)
  obtain ⟨mem, hstored, -, hbyte⟩ := storeBytes_present hbacked
  rw [hstored] at hstore
  cases hstore
  rw [hbyte, if_pos (by omega), Nat.add_sub_cancel_left, hread, List.getElem?_map,
    List.getElem?_range (by omega), Option.map_some]
  · intro j hj hsame
    rw [hlen] at hj
    rw [hproc, page_of_offset, page_of_offset] at hsame
    rw [page_of_offset, page_of_offset]
    exact congrArg (va + ·)
      (hdistinct _ (page_lt_iff.mpr (by omega)) _ (page_lt_iff.mpr hi) hsame)

/-- A page that is not mapped there keeps its contents. -/
theorem readMapping_frame {d : PgDir} {ps fl fl' : List ℕ} {va f pa : ℕ}
    (hmapped : Mapped d (k.proc c).pgdir va ps fl fl') (hshares : Shares k c a f)
    (h : readMapping c a va ps.length ext k = .ok (k', true)) (hpa : pa ∉ ps) :
    k'.mem pa = k.mem pa := by
  obtain ⟨k₁, bytes, hproc, hmem, hread, hstore⟩ := readMapping_stores hshares h
  have hlen : bytes.length ≤ ps.length * PGSIZE := by
    rw [hread, List.length_map, List.length_range]
    exact min_le_left ..
  have hbacked : k₁.Backed c (va * PGSIZE) bytes.length := by
    unfold Kernel.Backed
    rw [hproc]
    exact hmapped.backed (le_refl _) (by rw [Nat.add_mul]; omega)
  obtain ⟨mem, hstored, hother, -⟩ := storeBytes_present hbacked
  rw [hstored] at hstore
  cases hstore
  rw [← hmem]
  refine hother pa fun i hi hpte => hpa ?_
  have hpage := page_lt_iff.mpr (hi.trans_le hlen)
  rw [hproc, page_of_offset, hmapped.pte, if_pos ⟨Nat.le_add_right .., Nat.add_lt_add_left hpage va⟩,
    Nat.add_sub_cancel_left] at hpte
  exact List.mem_of_getElem? hpte

theorem Holds.start (h : init c s) : Holds c s := by
  obtain ⟨k, a, ext, hshares, hrun, hentry, hbefore, hasked, hstored, hfound⟩ := h
  obtain ⟨hplaced, -, d, fl, mem, file, hmapped, hread, hfile, hk⟩ := sys_mmap_some hrun
  have hlen := hplaced.length_got
  have hproc : s.kernel.proc c = { k.proc c with
      pgdir := d
      mapEntries := Function.update (k.proc c).mapEntries (k.proc c).currentMappingIndex
        (a.entry s.va a.pages)
      currentMappingIndex := (k.proc c).currentMappingIndex + 1 } := by
    rw [hk, Kernel.modify_self]
  have hrecord : (s.kernel.proc c).mapEntries s.entry = a.entry s.va a.pages := by
    rw [hproc, hentry]
    exact Function.update_self ..
  have hpages : s.pages c = a.pages := congrArg MapEntry.numPages hrecord
  have hfiles : s.kernel.file = file := by rw [hk]; rfl
  have hinode : s.kernel.inode = k.inode := by rw [hk]; rfl
  have hdir : Mapped (k.proc c).pgdir ((k.withDir c d fl k.mem).proc c).pgdir s.va (a.got k)
      (k.freelist.drop a.pages) fl := by
    rw [Kernel.withDir_self_proc]
    exact hmapped
  have hpresent : ∀ q < a.pages, (d.pte (s.va + q)).isSome := by
    intro q hq
    rw [hmapped.pte, if_pos (by omega), Nat.add_sub_cancel_left,
      List.getElem?_eq_getElem (by omega)]
    rfl
  refine ⟨?_, ?_, ?_, ?_, ?_, ?_, ?_, ?_, ?_, ?_, ?_⟩
  · have htype := congrArg File.type (hfile s.file)
    dsimp only at htype
    rw [hfiles, htype]
    exact hshares.type
  · rw [hinode, hfiles, hfile.ip, hbefore]
  · rw [hbefore]
    exact hshares.regular
  · rw [hrecord]
    unfold toFile
    have hflags : (a.entry s.va a.pages).flags = a.flags := rfl
    have hprivate := hplaced.valid
    unfold MmapArgs.valid at hprivate
    rw [hshares.shared] at hprivate
    rw [hflags, hshares.backed]
    simp at hprivate ⊢
    exact hprivate.1.1.2
  · rw [hrecord, hproc]
    exact hshares.file
  · rw [hrecord]
    rfl
  · rw [hasked, hpages]
  · rw [hpages, hproc]
    exact hpresent
  · intro i _
    rw [hstored]
  · intro _ i hi
    rw [hpages] at hi
    obtain ⟨pa, hpa⟩ := Option.isSome_iff_exists.mp (hpresent _ (page_lt_iff.mpr hi))
    have hbyte : s.byte c s.kernel i = some (s.kernel.mem pa ((s.va * PGSIZE + i) % PGSIZE)) := by
      apply byteAt_of_pte
      rw [page_of_offset, hproc]
      exact hpa
    rw [hstored, hfound]
    dsimp only
    rw [hbyte]
    rfl
  · intro hdistinct i hi hsize
    rw [hasked, ← hlen] at hi
    rw [hbefore] at hsize ⊢
    rw [← hlen] at hread
    have hbyte := readMapping_bytes (f := s.file) hdir ⟨hshares.shared, hshares.backed, hshares.length,
      by rw [Kernel.withDir_self_proc]; exact hshares.file, hshares.type, hshares.regular⟩ ?_ hread hi
        hsize
    · rw [hfound]
      show (s.kernel.byteAt c (s.va * PGSIZE + i)).getD 0 = _
      have hdirs : Kernel.proc { k.withDir c d fl mem with file := file } c =
          { k.proc c with pgdir := d } := Kernel.withDir_self_proc k c d fl mem
      have hsame : s.kernel.byteAt c (s.va * PGSIZE + i) =
          Kernel.byteAt { k.withDir c d fl mem with file := file } c (s.va * PGSIZE + i) := by
        unfold Kernel.byteAt
        rw [hproc, hdirs, hk]
        rfl
      rw [hsame, hbyte]
      rfl
    · rw [Kernel.withDir_self_proc, hlen]
      have hd := hdistinct
      unfold Distinct at hd
      rw [hpages, hproc] at hd
      exact hd

theorem Holds.step {u : Use} (h : Holds c s) (hstep : Step c s u s') : Holds c s' := by
  cases hstep with
  | store hi hrun => exact h.store hi hrun
  | grow hrun => exact h.grow hrun

/-! ### `munmap` -/

theorem exists_reaches (off n : ℕ) : ∃ m, Reaches off n m := by
  induction n using Nat.strong_induction_on generalizing off with
  | _ n ih =>
    by_cases hn : n = 0
    · exact ⟨0, .inl ⟨hn.symm, .inl hn⟩⟩
    · have hc : 0 < CHUNK := by decide
      by_cases hle : off + min n CHUNK ≤ MAXFILESIZE
      · obtain ⟨m, hm⟩ := ih (n - min n CHUNK) (by omega) (off + min n CHUNK)
        exact ⟨_, hm.step hle⟩
      · refine ⟨0, .inr ⟨Nat.pos_of_ne_zero hn, dvd_zero _, .inl rfl, ?_⟩⟩
        rw [Nat.sub_zero]
        omega

/-- **A write-back of present pages that succeeds** puts all their bytes at the beginning of the file. -/
theorem writeMapping_puts {m : MapEntry} {va f : ℕ} (hback : toFile m = true)
    (hf : ofileAt (k.proc c) m.fd = .ok f) (ht : (k.file f).type = .FD_INODE)
    (hdev : (k.inode (k.file f).ip).isDev = false)
    (hbacked : k.Backed c (va * PGSIZE) (m.numPages * PGSIZE))
    (h : writeMapping c m va ext k = .ok (k', true)) :
    k' = (k.setFile f { k.file f with off := 0 }).wrote f
      (k.bytesAt c (va * PGSIZE) (m.numPages * PGSIZE)) := by
  have hself : (k.setFile f { k.file f with off := 0 }).file f = { k.file f with off := 0 } :=
    setFile_self ..
  unfold writeMapping at h
  rw [if_neg, hf, ok_bind] at h
  · dsimp only at h
    unfold filewrite at h
    dsimp only at h
    rw [hself] at h
    split at h
    · cases h
    · split at h
      · rename_i hpipe
        rw [ht] at hpipe
        cases hpipe
      · obtain ⟨m', hm'⟩ := exists_reaches 0 (m.numPages * PGSIZE)
        obtain ⟨-, habsent⟩ | ⟨m₁, -, hk, hb, -⟩ := writeChunks_cases
          (by rw [hself]; exact hdev) (by rw [hself]; exact Nat.zero_le _) le_rfl h
        · rw [hself] at habsent
          exact absurd (fun i hi => hbacked i (hi.trans_le hm'.le)) (habsent m' hm')
        · rw [hk, of_decide_eq_true hb.symm]
          rfl
      · cases h
  · unfold toFile at hback
    rw [Bool.not_eq_true'] at hback
    rw [hback]
    decide

theorem getD_bytesAt {addr n i : ℕ} (hi : i < n) :
    (k.bytesAt c addr n).getD i 0 = (k.byteAt c (addr + i)).getD 0 := by
  rw [Kernel.bytesAt, List.getD_eq_getElem?_getD, List.getElem?_map, List.getElem?_range hi]
  rfl

/-- The file after a `munmap` of the mapping. -/
theorem Holds.munmap_inode (h : Holds c s) {virtualAddress length : ℤ}
    (hfound : Found s.kernel c virtualAddress s.entry)
    (hrun : sys_munmap c virtualAddress length ext s.kernel = .ok (k', true)) :
    k'.inode (s.kernel.file s.file).ip =
      s.before.put (s.kernel.bytesAt c (s.va * PGSIZE) (s.pages c * PGSIZE)) 0 := by
  have hva : pageOf virtualAddress = s.va := by
    rw [← h.base]
    exact (findmappingmetadata_some hfound.found).2.2.symm
  cases sys_munmap_exit hrun with
  | done i k₁ k₂ hfound' hwrite hclear =>
    obtain rfl := hfound.unique hfound'
    rw [hva] at hwrite
    have hputs := writeMapping_puts h.back h.file h.type (by rw [h.inode]; exact h.regular) h.backed
      hwrite
    obtain ⟨m, -, d, fl, mem, rfl, -⟩ := clearPages_ok hclear
    show k₁.inode _ = _
    rw [hputs]
    have hself : (s.kernel.setFile s.file { s.kernel.file s.file with off := 0 }).file s.file =
        { s.kernel.file s.file with off := 0 } := setFile_self ..
    have hinode := Kernel.wrote_inode
      (s.kernel.setFile s.file { s.kernel.file s.file with off := 0 }) s.file
      (s.kernel.bytesAt c (s.va * PGSIZE) (s.pages c * PGSIZE))
    rw [hself] at hinode
    rw [← h.inode]
    exact hinode

theorem room_of_exact (hputs : k'.inode (s.kernel.file s.file).ip =
      s.before.put (s.kernel.bytesAt c (s.va * PGSIZE) (s.pages c * PGSIZE)) 0)
    (hexact : Exact s k') : Room c s := by
  have hsize := hexact.1
  rw [hputs] at hsize
  unfold Inode.put at hsize
  dsimp only at hsize
  rw [Kernel.length_bytesAt, Nat.zero_add] at hsize
  exact max_eq_left_iff.mp hsize

theorem Holds.exact_iff (h : Holds c s) (hdistinct : Distinct c s)
    (hputs : k'.inode (s.kernel.file s.file).ip =
      s.before.put (s.kernel.bytesAt c (s.va * PGSIZE) (s.pages c * PGSIZE)) 0) :
    Exact s k' ↔ Room c s ∧ Filled c s := by
  have hdata : ∀ i, (k'.inode (s.kernel.file s.file).ip).data i =
      if i < s.pages c * PGSIZE then (s.stored i).getD (s.found i) else s.before.data i := by
    intro i
    rw [hputs]
    unfold Inode.put
    dsimp only
    rw [Kernel.length_bytesAt, Nat.zero_add]
    by_cases hi : i < s.pages c * PGSIZE
    · have hbyte : s.kernel.byteAt c (s.va * PGSIZE + i) = _ := h.bytes hdistinct i hi
      rw [if_pos ⟨Nat.zero_le _, hi⟩, if_pos hi, Nat.sub_zero, getD_bytesAt hi, hbyte]
      rfl
    · rw [if_neg fun hin => hi hin.2, if_neg hi]
  constructor
  · intro hexact
    have hroom := room_of_exact hputs hexact
    refine ⟨hroom, fun i _ hi hnone => ?_⟩
    have hbyte := hexact.2 i (hi.trans_le hroom)
    rw [hdata, if_pos hi, hnone] at hbyte
    exact hbyte
  · intro ⟨hroom, hfilled⟩
    constructor
    · rw [hputs]
      unfold Inode.put
      dsimp only
      rw [Kernel.length_bytesAt, Nat.zero_add]
      exact max_eq_left hroom
    · intro i hi
      rw [hdata]
      by_cases hlt : i < s.pages c * PGSIZE
      · rw [if_pos hlt]
        cases hstored : s.stored i with
        | some b => rfl
        | none =>
          by_cases hasked : i < s.asked * PGSIZE
          · exact h.read hdistinct i hasked hi
          · exact hfilled i (not_lt.mp hasked) hlt hstored
      · rw [if_neg hlt, h.fresh i (not_lt.mp hlt)]
        rfl

theorem Holds.of_reach (h : Reach (init c) (Step c) (fun _ _ => True) s) : Holds c s :=
  h.invariant (fun _ hinit => .start hinit) fun _ _ _ hs _ hstep => hs.step hstep

/-- **When a shared mapping changes in its file only what was stored**: never when its pages reach beyond
the end of the file; and, where its pages are memory and none is mapped twice, just when they do not, and
the pages that growth has added hold the file's own bytes wherever nothing was stored.

Where growth has mapped the page of the null pointer there is no memory to hold what is stored, and the
second part says nothing. -/
theorem shared_exact_iff (h : Reach (init c) (Step c) (fun _ _ => True) s) {virtualAddress length : ℤ}
    (hfound : Found s.kernel c virtualAddress s.entry)
    (hrun : sys_munmap c virtualAddress length ext s.kernel = .ok (k', true)) :
    (Exact s k' → Room c s) ∧
      (OnMemory c s → Distinct c s → (Exact s k' ↔ Room c s ∧ Filled c s)) := by
  have hholds := Holds.of_reach h
  have hputs := hholds.munmap_inode hfound hrun
  exact ⟨room_of_exact hputs, fun _ hdistinct => hholds.exact_iff hdistinct hputs⟩

/-! ### A `munmap` that succeeds -/

theorem Holds.write (h : Holds c s) (ext : External) (hw : (s.kernel.file s.file).writable = true)
    (hfits : s.pages c * PGSIZE ≤ MAXFILESIZE) :
    ∃ k₁, writeMapping c ((s.kernel.proc c).mapEntries s.entry) s.va ext s.kernel = .ok (k₁, true) := by
  have hself : (s.kernel.setFile s.file { s.kernel.file s.file with off := 0 }).file s.file =
      { s.kernel.file s.file with off := 0 } := setFile_self ..
  have hdev : ((s.kernel.setFile s.file { s.kernel.file s.file with off := 0 }).inode
      ((s.kernel.setFile s.file { s.kernel.file s.file with off := 0 }).file s.file).ip).isDev =
        false := by
    rw [hself]
    exact (congrArg Inode.isDev h.inode).trans h.regular
  obtain ⟨⟨k₁, b⟩, hrun⟩ : ∃ r, writeChunks c s.file (s.va * PGSIZE) ext (s.pages c * PGSIZE)
      (s.pages c * PGSIZE) (s.kernel.setFile s.file { s.kernel.file s.file with off := 0 }) = .ok r :=
    writeChunks_returns h.backed
  have hb : b = true := by
    have hall : Reaches 0 (s.pages c * PGSIZE) (s.pages c * PGSIZE) :=
      .inl ⟨rfl, .inr (by rwa [Nat.zero_add])⟩
    obtain ⟨-, habsent⟩ | ⟨m, -, -, rfl, hreaches⟩ := writeChunks_cases hdev
      (by rw [hself]; exact Nat.zero_le _) le_rfl hrun
    · rw [hself] at habsent
      exact absurd h.backed (habsent _ hall)
    · rw [hself] at hreaches
      exact decide_eq_true (hreaches.unique hall)
  rw [hb] at hrun
  refine ⟨k₁, ?_⟩
  have hback := h.back
  unfold toFile at hback
  rw [Bool.not_eq_true'] at hback
  unfold writeMapping
  rw [if_neg (by rw [hback]; decide), h.file, ok_bind]
  dsimp only
  unfold filewrite
  dsimp only
  rw [hself, if_neg (by dsimp only; rw [hw]; decide)]
  split
  · rename_i hpipe
    rw [h.type] at hpipe
    cases hpipe
  · exact hrun
  · rename_i hnone
    rw [h.type] at hnone
    cases hnone

/-- A `munmap` of the mapping succeeds, where the file takes what is written and the pages can be freed. -/
theorem Holds.unmaps (h : Holds c s) (ext : External) {virtualAddress length : ℤ}
    (hfound : Found s.kernel c virtualAddress s.entry)
    (hw : (s.kernel.file s.file).writable = true) (hfits : s.pages c * PGSIZE ≤ MAXFILESIZE)
    (hle : pageOf virtualAddress + munmapPages length ≤ KERNBASE)
    (hpages : ∀ j < munmapPages length, ∃ pa,
      (s.kernel.proc c).pgdir.pte (pageOf virtualAddress + j) = some pa ∧ s.kernel.Freeable pa) :
    ∃ k', sys_munmap c virtualAddress length ext s.kernel = .ok (k', true) := by
  have hva : pageOf virtualAddress = s.va := by
    rw [← h.base]
    exact (findmappingmetadata_some hfound.found).2.2.symm
  obtain ⟨k₁, hwrite⟩ := h.write ext hw hfits
  have hputs := writeMapping_puts h.back h.file h.type (by rw [h.inode]; exact h.regular) h.backed hwrite
  obtain ⟨k₂, -, hrun⟩ := sys_munmap_succeeds hfound (by rw [hva]; exact hwrite) hle
    (by rw [hputs]; exact hpages)
  exact ⟨_, hrun⟩

/-! ### A mapping that grows -/

/-- The process has opened a regular file of the given size, of zeros; two pages are free. -/
def opened (size : ℕ) : Kernel :=
  { setOfile 0 0 (some 0) ((tabled fun _ => none).setFile 0 ⟨.FD_INODE, 1, true, true, 1, 0⟩) with
    freelist := [500, 501]
    inode := fun _ => ⟨false, size, fun _ => 0⟩ }

/-- One page of descriptor `0`, shared, at the lowest address, that grows up. -/
def growingPage : MmapArgs :=
  { sharedPage with flags := sharedPage.flags ||| MAP_GROWSUP }

/-- The page has been mapped, and nothing else. -/
structure Started (size : ℕ) (s : State) : Prop where
  init : SharedFile.init 0 s
  entry : s.entry = 0
  va : s.va = MMAPBASE
  asked : s.asked = 1
  before : s.before = ⟨false, size, fun _ => 0⟩
  stored : s.stored = fun _ => none
  index : (s.kernel.proc 0).currentMappingIndex = 1
  records : (s.kernel.proc 0).mapEntries =
    Function.update (fun _ => .unused) 0 (growingPage.entry MMAPBASE 1)
  pte : ∀ x, (s.kernel.proc 0).pgdir.pte x = if x = MMAPBASE then some 500 else none
  table : ∀ x, ((s.kernel.proc 0).pgdir.table x).isSome
  freelist : s.kernel.freelist = [501]
  mem : s.kernel.mem 501 = fun _ => 0
  writable : (s.kernel.file s.file).writable = true
  kernelEnd : s.kernel.kernelEnd = 256

theorem opened_placed (size : ℕ) : Placed (opened size) 0 growingPage MMAPBASE where
  valid := by decide
  nonneg := by decide
  room := by
    show growingPage.pages ≤ [500, 501].length
    decide
  place := by
    show placeMapping ((setOfile 0 0 (some 0) (tabled fun _ => none)).proc 0) growingPage _ = _
    decide
  guard := by
    show guardOk ((setOfile 0 0 (some 0) (tabled fun _ => none)).proc 0) growingPage _ _ = _
    decide

theorem exists_started (size : ℕ) : ∃ s, Started size s := by
  have hpages : growingPage.pages = 1 := by decide
  obtain ⟨-, k₁, hmap⟩ | ⟨hfull, -⟩ := sys_mmap_placed ⟨none, false⟩ (opened_placed size)
    (fun _ _ => rfl) (.inr ⟨0, rfl, rfl, rfl, rfl⟩)
  · have hshares : Shares (opened size) 0 growingPage 0 :=
      ⟨by decide, by decide, by decide, rfl, rfl, rfl⟩
    obtain ⟨-, -, d, fl, mem, file, hmapped, hread, hfile, hk⟩ := sys_mmap_some hmap
    have hgot : growingPage.got (opened size) = [500] := rfl
    rw [hgot] at hmapped
    have hproc : k₁.proc 0 = { (opened size).proc 0 with
        pgdir := d
        mapEntries := Function.update (fun _ => .unused) 0 (growingPage.entry MMAPBASE 1)
        currentMappingIndex := 1 } := by
      rw [hk, Kernel.modify_self, hpages]
      rfl
    have htable : ∀ x, (d.table x).isSome := fun x => hmapped.table_isSome rfl
    have hfl : fl = [501] := by
      obtain ⟨ts, hts, htables⟩ := hmapped.tables
      rw [htables.eq_nil fun _ => rfl] at hts
      exact hts.symm
    have hmem : mem 501 = fun _ => 0 := by
      rw [hpages] at hread
      have hdir : Mapped ((opened size).proc 0).pgdir
          (((opened size).withDir 0 d fl (opened size).mem).proc 0).pgdir MMAPBASE [500] [501] fl := by
        rw [Kernel.withDir_self_proc]
        exact hmapped
      have hshares' : Shares ((opened size).withDir 0 d fl (opened size).mem) 0 growingPage 0 :=
        ⟨hshares.shared, hshares.backed, hshares.length,
          by rw [Kernel.withDir_self_proc]; exact hshares.file, hshares.type, hshares.regular⟩
      exact readMapping_frame hdir hshares' hread (by decide)
    have hw : (k₁.file 0).writable = true := by
      have hsame := congrArg File.writable (hfile 0)
      dsimp only at hsame
      rw [hk]
      exact hsame
    refine ⟨⟨k₁, 0, MMAPBASE, 0, ⟨false, size, fun _ => 0⟩, 1, fun _ => none,
        fun i => (k₁.byteAt 0 (MMAPBASE * PGSIZE + i)).getD 0⟩,
      ⟨opened size, growingPage, ⟨none, false⟩, hshares, hmap, rfl, rfl, hpages.symm, rfl, rfl⟩,
      rfl, rfl, rfl, rfl, rfl, ?_, ?_, ?_, ?_, ?_, ?_, hw, ?_⟩
    · rw [hproc]
    · rw [hproc]
    · intro x
      rw [hproc]
      refine (hmapped.pte x).trans ?_
      rw [List.length_singleton]
      by_cases hx : x = MMAPBASE
      · rw [if_pos (by omega), if_pos hx, hx, Nat.sub_self]
        rfl
      · rw [if_neg (by omega), if_neg hx]
        rfl
    · rw [hproc]
      exact htable
    · rw [hk]
      exact hfl
    · rw [hk]
      exact hmem
    · rw [hk]
      rfl
  · exact absurd hfull (by show ¬NMAP ≤ 0; decide)

theorem Started.record {size : ℕ} (h : Started size s) (i : ℕ) :
    (s.kernel.proc 0).mapEntries i = if i = 0 then growingPage.entry MMAPBASE 1 else .unused := by
  rw [h.records]
  exact Function.update_apply ..

theorem found_first (hrecord : ∀ j, j ≠ 0 → (k.proc 0).mapEntries j = .unused)
    (hvalid : ((k.proc 0).mapEntries 0).isValid = true)
    (hbase : ((k.proc 0).mapEntries 0).startingVirtualAddress = MMAPBASE) :
    Found k 0 0x60000000 0 := by
  refine ⟨by decide, findmappingmetadata_eq (by decide) hvalid ?_ ?_⟩
  · rw [hbase]
    decide
  · intro j _ hv _
    by_contra hne
    rw [hrecord j hne] at hv
    cases hv

/-- The fault at the guard page is answered. -/
theorem Started.grows {size : ℕ} (h : Started size s) : ∃ k', cangrowup 0 (MMAPBASE + 1) s.kernel =
    .ok (k', true) ∧
      (∀ x, (k'.proc 0).pgdir.pte x = if x = MMAPBASE + 1 then some 501
        else (s.kernel.proc 0).pgdir.pte x) ∧
      (k'.proc 0).mapEntries =
        Function.update (s.kernel.proc 0).mapEntries 0 (growingPage.entry MMAPBASE 1).grown ∧
      k'.mem = s.kernel.mem ∧ k'.file = s.kernel.file ∧ k'.kernelEnd = s.kernel.kernelEnd := by
  have hguard : ∀ va, va ≠ MMAPBASE + 1 → isguardpage (s.kernel.proc 0) va = false := by
    intro va hne
    unfold isguardpage
    rw [h.index, h.records]
    show (decide (MMAPBASE + 1 = va) || (false || false)) = false
    rw [decide_eq_false (Ne.symm hne)]
    rfl
  have hinto : growsInto (s.kernel.proc 0) (MMAPBASE + 1) ((s.kernel.proc 0).mapEntries 0) = true := by
    rw [h.record, if_pos rfl, growsInto_iff]
    refine ⟨by decide, by decide, rfl, canallocatva_iff.mpr fun j hj => ⟨hguard _ (by omega), ?_⟩⟩
    rw [present_of_lt (by unfold MMAPBASE KERNBASE; omega), h.pte, if_neg (by omega)]
    rfl
  have hnone : (s.kernel.proc 0).pgdir.pte (MMAPBASE + 1) = none := by
    rw [h.pte, if_neg (by decide)]
  obtain ⟨⟨d, fl, b⟩, hmap⟩ : ∃ r, mappages (s.kernel.proc 0).pgdir (MMAPBASE + 1) 501 [] = .ok r :=
    mappages_free (by decide) hnone
  have hfind : (List.range ((s.kernel.proc 0).currentMappingIndex + 1)).find? (fun i =>
      growsInto (s.kernel.proc 0) (MMAPBASE + 1) ((s.kernel.proc 0).mapEntries i)) = some 0 := by
    rw [h.index, List.range_succ_eq_map]
    exact List.find?_cons_of_pos hinto
  obtain ⟨-, -, ⟨rfl, hmapped⟩ | ⟨-, -, -, -, hno⟩⟩ := mappages_ok hmap
  · refine ⟨(s.kernel.withDir 0 d fl s.kernel.mem).withEntry 0 0 (growingPage.entry MMAPBASE 1).grown,
      ?_, ?_, ?_, rfl, rfl, rfl⟩
    · unfold cangrowup
      dsimp only
      rw [hfind]
      dsimp only
      rw [h.record, if_pos rfl, h.freelist]
      show (mappages (s.kernel.proc 0).pgdir (MMAPBASE + 1) 501 [] >>= _) = _
      rw [hmap, ok_bind]
      rfl
    · intro x
      rw [Kernel.withEntry, Kernel.modify_self, Kernel.withDir_self_proc]
      refine (hmapped.pte x).trans ?_
      rw [List.length_singleton]
      by_cases hx : x = MMAPBASE + 1
      · rw [if_pos (by omega), if_pos hx, hx, Nat.sub_self]
        rfl
      · rw [if_neg (by omega), if_neg hx]
    · rw [Kernel.withEntry, Kernel.modify_self, Kernel.withDir_self_proc]
  · have htable := h.table ((MMAPBASE + 1) / 1024)
    rw [hno] at htable
    cases htable

theorem storeByte_frame {addr pa : ℕ} {b : UInt8}
    (h : (k.proc c).pgdir.pte (addr / PGSIZE) = some pa) :
    ∃ k', storeByte c addr b k = .ok k' ∧ k'.proc = k.proc ∧ k'.file = k.file ∧
      k'.kernelEnd = k.kernelEnd :=
  ⟨_, storeByte_present h, rfl, rfl, rfl⟩

/-- A file of two pages: one is mapped, the second one grows, and each takes a store before `munmap`. -/
theorem shared_exact_grown : ∃ s k', Reach (init 0) (Step 0) (fun _ _ => True) s ∧
    s.asked = 1 ∧ s.pages 0 = 2 ∧ s.stored 3 = some 7 ∧ s.stored 5000 = some 9 ∧
      sys_munmap 0 0x60000000 8192 ⟨none, false⟩ s.kernel = .ok (k', true) ∧ Exact s k' := by
  obtain ⟨s₀, h⟩ := exists_started 8192
  obtain ⟨k₁, hgrow, hpte, hrecords, hmem, hfile, hend⟩ := h.grows
  have hpte₀ : (k₁.proc 0).pgdir.pte MMAPBASE = some 500 := by
    rw [hpte, if_neg (by decide), h.pte, if_pos rfl]
  have hpte₁ : (k₁.proc 0).pgdir.pte (MMAPBASE + 1) = some 501 := by
    rw [hpte, if_pos rfl]
  have hfirst : (k₁.proc 0).mapEntries 0 = (growingPage.entry MMAPBASE 1).grown := by
    rw [hrecords, Function.update_self]
  have htwo : ((k₁.proc 0).mapEntries s₀.entry).numPages = 2 := by
    rw [h.entry, hfirst]
    rfl
  have hone : s₀.pages 0 = 1 := by
    rw [State.pages, h.entry, h.record]
    rfl
  -- the two stores find their pages
  obtain ⟨k₂, hlow, hproc₂, hfile₂, hend₂⟩ :
      ∃ k', storeByte 0 (s₀.va * PGSIZE + 3) 7 k₁ = .ok k' ∧ k'.proc = k₁.proc ∧ k'.file = k₁.file ∧
        k'.kernelEnd = k₁.kernelEnd := by
    have hpage : (k₁.proc 0).pgdir.pte ((s₀.va * PGSIZE + 3) / PGSIZE) = some 500 := by
      rw [page_of_offset, h.va]
      exact hpte₀
    exact storeByte_frame hpage
  obtain ⟨k₃, hhigh, hproc₃, hfile₃, hend₃⟩ :
      ∃ k', storeByte 0 (s₀.va * PGSIZE + 5000) 9 k₂ = .ok k' ∧ k'.proc = k₂.proc ∧
        k'.file = k₂.file ∧ k'.kernelEnd = k₂.kernelEnd := by
    have hpage : (k₂.proc 0).pgdir.pte ((s₀.va * PGSIZE + 5000) / PGSIZE) = some 501 := by
      rw [page_of_offset, h.va, hproc₂]
      exact hpte₁
    exact storeByte_frame hpage
  have hproc : k₃.proc = k₁.proc := hproc₃.trans hproc₂
  let s : State := { s₀ with
    kernel := k₃
    stored := Function.update (Function.update s₀.stored 3 (some 7)) 5000 (some 9)
    found := fun i => if i < s₀.pages 0 * PGSIZE then s₀.found i else (s₀.byte 0 k₁ i).getD 0 }
  have hreach : Reach (init 0) (Step 0) (fun _ _ => True) s := by
    refine .next (.next (.next (.start h.init) trivial (.grow hgrow)) trivial
      (.store (i := 3) (b := 7) ?_ hlow)) trivial (.store (i := 5000) (b := 9) ?_ hhigh)
    · rw [State.pages, htwo]
      decide
    · rw [State.pages, hproc₂, htwo]
      decide
  have hpages : s.pages 0 = 2 := by
    rw [State.pages, hproc, htwo]
  have hentry : ∀ q < 2, (s.kernel.proc 0).pgdir.pte (s.va + q) = some (500 + q) := by
    intro q hq
    rw [hproc, show s.va = MMAPBASE from h.va]
    obtain rfl | rfl : q = 0 ∨ q = 1 := by omega
    · exact hpte₀
    · exact hpte₁
  have hfound : Found s.kernel 0 0x60000000 s.entry := by
    rw [show s.entry = 0 from h.entry]
    refine found_first ?_ ?_ ?_
    · intro j hj
      rw [hproc, hrecords, Function.update_of_ne hj, h.record, if_neg hj]
    · rw [hproc, hfirst]
      rfl
    · rw [hproc, hfirst]
      rfl
  have hmemory : OnMemory 0 s := by
    intro q hq
    rw [hpages] at hq
    rw [hentry q hq, Ne, Option.some.injEq, nullPage]
    omega
  have hdistinct : Distinct 0 s := by
    intro q hq q' hq' hsame
    rw [hpages] at hq hq'
    rw [hentry q hq, hentry q' hq', Option.some.injEq] at hsame
    omega
  have hfree : ∀ j < munmapPages 8192, ∃ pa,
      (s.kernel.proc 0).pgdir.pte (pageOf 0x60000000 + j) = some pa ∧ s.kernel.Freeable pa := by
    intro j hj
    have hj' : j < 2 := hj
    refine ⟨500 + j, ?_, ?_⟩
    · rw [← hentry j hj', show s.va = MMAPBASE from h.va]
      rfl
    · have hkernel : s.kernel.kernelEnd = 256 := hend₃.trans (hend₂.trans (hend.trans h.kernelEnd))
      rw [Kernel.Freeable, hkernel, PHYSTOP]
      omega
  have hwritable : (s.kernel.file s.file).writable = true := by
    rw [show s.kernel.file = s₀.kernel.file from hfile₃.trans (hfile₂.trans hfile)]
    exact h.writable
  obtain ⟨k', hrun⟩ := (Holds.of_reach hreach).unmaps ⟨none, false⟩ hfound hwritable
    (by rw [hpages]; decide) (by decide) hfree
  refine ⟨s, k', hreach, h.asked, hpages, ?_, ?_, hrun,
    ((shared_exact_iff hreach hfound hrun).2 hmemory hdistinct).mpr ⟨?_, ?_⟩⟩
  · show Function.update (Function.update s₀.stored 3 (some 7)) 5000 (some 9) 3 = some 7
    rw [Function.update_of_ne (by decide), Function.update_self]
  · show Function.update (Function.update s₀.stored 3 (some 7)) 5000 (some 9) 5000 = some 9
    rw [Function.update_self]
  · rw [Room, hpages, show s.before = _ from h.before]
    decide
  · -- the page that growth has added holds zeros, as the file does
    intro i hlo hhi _
    rw [show s.asked = 1 from h.asked, one_mul] at hlo
    rw [hpages] at hhi
    have hpage : i / PGSIZE = 1 := Nat.div_eq_of_lt_le (by rwa [one_mul]) hhi
    have hto : (k₁.proc 0).pgdir.pte ((s₀.va * PGSIZE + i) / PGSIZE) = some 501 := by
      rw [page_of_offset, hpage, h.va]
      exact hpte₁
    have hbyte : s₀.byte 0 k₁ i = some 0 := by
      rw [State.byte, byteAt_of_pte hto, hmem, h.mem]
    show (if i < s₀.pages 0 * PGSIZE then s₀.found i else (s₀.byte 0 k₁ i).getD 0) = s₀.before.data i
    rw [hone, one_mul, if_neg (not_lt.mpr hlo), hbyte, h.before]
    rfl

/-- An empty file that is mapped and unmapped again has 4096 bytes. -/
theorem empty_file_grows : ¬∀ c s, Reach (init c) (Step c) (fun _ _ => True) s →
    ∀ virtualAddress length ext k', Found s.kernel c virtualAddress s.entry →
      sys_munmap c virtualAddress length ext s.kernel = .ok (k', true) → Exact s k' := by
  intro hall
  obtain ⟨s, h⟩ := exists_started 0
  have hholds := Holds.start h.init
  have hfound : Found s.kernel 0 0x60000000 s.entry := by
    rw [h.entry]
    exact found_first (fun j hj => by rw [h.record, if_neg hj]) (by rw [h.record]; rfl)
      (by rw [h.record]; rfl)
  have hone : s.pages 0 = 1 := by
    rw [State.pages, h.entry, h.record]
    rfl
  have hfree : ∀ j < munmapPages 4096, ∃ pa,
      (s.kernel.proc 0).pgdir.pte (pageOf 0x60000000 + j) = some pa ∧ s.kernel.Freeable pa := by
    intro j hj
    have hzero : j = 0 := Nat.lt_one_iff.mp hj
    refine ⟨500, ?_, ?_⟩
    · rw [hzero, h.pte]
      rfl
    · rw [Kernel.Freeable, h.kernelEnd]
      decide
  obtain ⟨k', hrun⟩ := hholds.unmaps ⟨none, false⟩ hfound h.writable (by rw [hone]; decide) (by decide)
    hfree
  have hroom := room_of_exact (hholds.munmap_inode hfound hrun) (hall 0 s (.start h.init) _ _ _ _ hfound hrun)
  rw [Room, hone, h.before] at hroom
  exact absurd hroom (by decide)

end OperatingSystems.Vm.SharedFile
