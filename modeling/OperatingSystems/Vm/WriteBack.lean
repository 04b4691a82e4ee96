import Mathlib
import OperatingSystems.Lib.GuardedRuns
import OperatingSystems.Vm.Gaps

/-!
# Where a shared mapping is written back to

Runs of `open`, `close`, `dup`, `mmap` and `munmap` of one process.  The record of a mapping keeps the
number of a descriptor; a ghost table remembers for each record the open file, and its inode, that the
mapping was read from.

* **`Faithful`** — `munmap` writes to the file that the mapping was read from, and to no other.
* **`Meets`** — the condition on `open` and `dup`: the descriptor that is given out is not one to which a
  mapping of another file is to be written back.
* **`written_back`** — in runs that meet it, every `munmap` is faithful.
-/

namespace OperatingSystems.Vm.WriteBack

open GuardedRuns Outcomes

/-! ### Runs -/

/-- The kernel, and for each record the open file and the inode that its mapping was read from. -/
structure State where
  kernel : Kernel
  source : ℕ → Option (ℕ × ℕ)

inductive Call
  | openFile (ip : ℕ) (readable writable : Bool)
  | close (fd : ℤ)
  | dup (fd : ℤ)
  | mmap (a : MmapArgs) (ext : External)
  | munmap (virtualAddress length : ℤ) (ext : External)

/-- The open file that `mmap` reads, and its inode. -/
def readFrom (k : Kernel) (c : Slot) (a : MmapArgs) : Option (ℕ × ℕ) :=
  if has a.flags MAP_ANONYMOUS then none
  else (ofileAt (k.proc c) a.fd).toOption.map fun f => (f, (k.file f).ip)

def next (c : Slot) (s : State) : Call → Except Fault State
  | .openFile ip readable writable => .ok ⟨(sys_open c ip readable writable s.kernel).1, s.source⟩
  | .close fd => .ok ⟨(sys_close c fd s.kernel).1, s.source⟩
  | .dup fd => .ok ⟨(sys_dup c fd s.kernel).1, s.source⟩
  | .mmap a ext => do
    let (kernel, r) ← sys_mmap c a ext s.kernel
    match r with
    | some _ => return ⟨kernel, Function.update s.source (s.kernel.proc c).currentMappingIndex
        (readFrom s.kernel c a)⟩
    | none => return ⟨kernel, s.source⟩
  | .munmap virtualAddress length ext => do
    let (kernel, _) ← sys_munmap c virtualAddress length ext s.kernel
    return ⟨kernel, s.source⟩

def step (c : Slot) (s : State) (call : Call) (s' : State) : Prop :=
  next c s call = .ok s'

/-- The descriptors of a process that stand for an open file. -/
def descriptors (p : Proc) (f : ℕ) : Finset ℕ :=
  (Finset.range NOFILE).filter fun fd => p.ofile fd = some f

/-- The process has no mapping yet; its entries are invalid, or zero as in the first process; and its
descriptors are counted in the open files. -/
def init (c : Slot) (s : State) : Prop :=
  (s.kernel.proc c).currentMappingIndex = 0 ∧
    (∀ i < NMAP, ((s.kernel.proc c).mapEntries i).isValid = true →
      (s.kernel.proc c).mapEntries i = ⟨0, 0, 0, 0, true, 0⟩) ∧
    (∀ f, (descriptors (s.kernel.proc c) f).card ≤ (s.kernel.file f).ref) ∧
    s.source = fun _ => none

/-- The test of `munmap` for a mapping that is written to its file. -/
def toFile (m : MapEntry) : Bool :=
  !(has m.flags MAP_ANONYMOUS || has m.flags MAP_PRIVATE)

/-- The open file to which `munmap` of record `i` writes at least a page. -/
def target (k : Kernel) (c : Slot) (i : ℕ) : Option ℕ :=
  if toFile ((k.proc c).mapEntries i) ∧ 0 < ((k.proc c).mapEntries i).numPages then
    (ofileAt (k.proc c) ((k.proc c).mapEntries i).fd).toOption
  else none

/-- **In one state**: the file that `munmap` of a mapping writes to is the one that the mapping
was read from, and no inode is changed but that of the file. -/
def Faithful (c : Slot) (s : State) : Prop :=
  ∀ virtualAddress, (∀ i f, Found s.kernel c virtualAddress i → target s.kernel c i = some f →
      s.source i = some (f, (s.kernel.file f).ip)) ∧
    ∀ length ext k' b, sys_munmap c virtualAddress length ext s.kernel = .ok (k', b) →
      ∀ inum, k'.inode inum ≠ s.kernel.inode inum →
        ∃ i f, Found s.kernel c virtualAddress i ∧ target s.kernel c i = some f ∧
          (s.kernel.file f).ip = inum

/-! ### The condition -/

/-- The mappings that are to be written back to descriptor `fd` were read from `src`. -/
def Reserved (c : Slot) (s : State) (fd : ℕ) (src : ℕ × ℕ) : Prop :=
  ∀ i < NMAP, ((s.kernel.proc c).mapEntries i).isValid = true →
    toFile ((s.kernel.proc c).mapEntries i) = true → ((s.kernel.proc c).mapEntries i).fd = fd →
    ∀ src', s.source i = some src' → src' = src

/-- A descriptor is given out again only for the file of the mappings that name it. -/
def Meets (c : Slot) (s : State) : Call → Prop
  | .openFile ip _ _ => ∀ f fd, filealloc s.kernel = some f → fdalloc (s.kernel.proc c) = some fd →
      Reserved c s fd (f, ip)
  | .dup fd => ∀ n f fd', argfd (s.kernel.proc c) fd = some (n, f) →
      fdalloc (s.kernel.proc c) = some fd' → Reserved c s fd' (f, (s.kernel.file f).ip)
  | _ => True

variable {c : Slot} {k k' : Kernel} {p : Proc} {s s' : State} {a : MmapArgs} {ext : External}

/-! ### Open files -/

theorem ofileAt_eq_ok {fd : ℤ} {f : ℕ} :
    ofileAt p fd = .ok f ↔ 0 ≤ fd ∧ fd < NOFILE ∧ p.ofile fd.toNat = some f := by
  unfold ofileAt
  split
  · rename_i hfd
    cases hf : p.ofile fd.toNat with
    | none => simp
    | some g => simp [hfd.1, hfd.2]
  · rename_i hfd
    constructor
    · intro h
      cases h
    · rintro ⟨h1, h2, -⟩
      exact absurd ⟨h1, h2⟩ hfd

theorem filealloc_some {f : ℕ} (h : filealloc k = some f) : (k.file f).ref = 0 := by
  unfold filealloc at h
  have hf := List.find?_some h
  exact of_decide_eq_true hf

theorem mem_descriptors {f fd : ℕ} : fd ∈ descriptors p f ↔ fd < NOFILE ∧ p.ofile fd = some f := by
  rw [descriptors, Finset.mem_filter, Finset.mem_range]

/-- A descriptor that is given out is one more for its file. -/
theorem card_descriptors_give {p' : Proc} {fd f g : ℕ}
    (hofile : p'.ofile = Function.update p.ofile fd (some f)) :
    (descriptors p' g).card ≤ (descriptors p g).card + if g = f then 1 else 0 := by
  by_cases hg : g = f
  · rw [if_pos hg]
    refine le_trans (Finset.card_le_card fun x hx => ?_) (Finset.card_insert_le fd _)
    obtain ⟨hlt, hx⟩ := mem_descriptors.mp hx
    rw [Finset.mem_insert, mem_descriptors]
    by_cases hfd : x = fd
    · exact Or.inl hfd
    · rw [hofile, Function.update_of_ne hfd] at hx
      exact Or.inr ⟨hlt, hx⟩
  · rw [if_neg hg, Nat.add_zero]
    refine Finset.card_le_card fun x hx => ?_
    obtain ⟨hlt, hx⟩ := mem_descriptors.mp hx
    rw [mem_descriptors]
    by_cases hfd : x = fd
    · rw [hofile, hfd, Function.update_self] at hx
      exact absurd (Option.some.inj hx).symm hg
    · rw [hofile, Function.update_of_ne hfd] at hx
      exact ⟨hlt, hx⟩

theorem ofile_giveUp {p' : Proc} {fd x f : ℕ} (hofile : p'.ofile = Function.update p.ofile fd none)
    (hx : p'.ofile x = some f) : x ≠ fd ∧ p.ofile x = some f := by
  by_cases hfd : x = fd
  · rw [hofile, hfd, Function.update_self] at hx
    cases hx
  · rw [hofile, Function.update_of_ne hfd] at hx
    exact ⟨hfd, hx⟩

/-- A descriptor that is given up is one less for its file. -/
theorem card_descriptors_giveUp {p' : Proc} {fd f g : ℕ} (hfd : fd < NOFILE)
    (hf : p.ofile fd = some f) (hofile : p'.ofile = Function.update p.ofile fd none) :
    (descriptors p' g).card ≤ (descriptors p g).card - if g = f then 1 else 0 := by
  have hsub : ∀ x ∈ descriptors p' g, x ≠ fd ∧ x ∈ descriptors p g := fun x hx => by
    obtain ⟨hlt, hx⟩ := mem_descriptors.mp hx
    obtain ⟨hne, hx⟩ := ofile_giveUp hofile hx
    exact ⟨hne, mem_descriptors.mpr ⟨hlt, hx⟩⟩
  by_cases hg : g = f
  · rw [if_pos hg, hg, ← Finset.card_erase_of_mem (mem_descriptors.mpr ⟨hfd, hf⟩), ← hg]
    exact Finset.card_le_card fun x hx => Finset.mem_erase.mpr (hsub x hx)
  · rw [if_neg hg, Nat.sub_zero]
    exact Finset.card_le_card fun x hx => (hsub x hx).2

theorem setFile_self (f : ℕ) (file : File) : (k.setFile f file).file f = file :=
  Function.update_self ..

theorem setFile_of_ne {f g : ℕ} (h : g ≠ f) (file : File) : (k.setFile f file).file g = k.file g :=
  Function.update_of_ne h ..

theorem fileclose_file (f : ℕ) (k : Kernel) (g : ℕ) :
    ((fileclose f k).file g).ip = (k.file g).ip ∧
      ((fileclose f k).file g).ref = (k.file g).ref - if g = f then 1 else 0 := by
  unfold fileclose
  dsimp only
  by_cases hg : g = f
  · rw [if_pos hg, hg]
    split
    · rw [setFile_self]
      exact ⟨rfl, rfl⟩
    · rw [setFile_self]
      refine ⟨rfl, ?_⟩
      show 0 = (k.file f).ref - 1
      omega
  · rw [if_neg hg, Nat.sub_zero]
    split <;> rw [setFile_of_ne hg] <;> exact ⟨rfl, rfl⟩

theorem fileclose_proc (f : ℕ) (k : Kernel) : (fileclose f k).proc = k.proc := by
  unfold fileclose
  dsimp only
  split <;> rfl

/-! ### The invariant -/

/-- The descriptors are counted; and a mapping that is to be written back was read from the file that its
descriptor stands for, as long as it stands for one. -/
structure Sourced (c : Slot) (s : State) : Prop where
  counted : ∀ f, (descriptors (s.kernel.proc c) f).card ≤ (s.kernel.file f).ref
  entries : ∀ i < NMAP, ((s.kernel.proc c).mapEntries i).isValid = true →
    toFile ((s.kernel.proc c).mapEntries i) = true →
    (((s.kernel.proc c).mapEntries i).inUse = false ∧
        ((s.kernel.proc c).mapEntries i).numPages = 0 ∧ s.source i = none) ∨
      ∃ src, s.source i = some src ∧
        ∀ f, ofileAt (s.kernel.proc c) ((s.kernel.proc c).mapEntries i).fd = .ok f →
          src = (f, (s.kernel.file f).ip)

/-- An entry that is valid afterwards is the one from before, or it has grown. -/
def Follows (m m' : MapEntry) : Prop :=
  m'.isValid = true → m.isValid = true ∧ m'.flags = m.flags ∧ m'.fd = m.fd ∧
    m'.startingVirtualAddress = m.startingVirtualAddress ∧ (m.inUse = false → m'.numPages = m.numPages)

theorem Follows.refl (m : MapEntry) : Follows m m :=
  fun h => ⟨h, rfl, rfl, rfl, fun _ => rfl⟩

theorem Sourced.congr (h : Sourced c s)
    (hofile : (k'.proc c).ofile = (s.kernel.proc c).ofile)
    (hfile : ∀ f, (k'.file f).ip = (s.kernel.file f).ip ∧
      (k'.file f).ref = (s.kernel.file f).ref)
    (hentries : ∀ i, Follows ((s.kernel.proc c).mapEntries i) ((k'.proc c).mapEntries i)) :
    Sourced c ⟨k', s.source⟩ where
  counted f := by
    dsimp only
    rw [descriptors, hofile, (hfile f).2]
    exact h.counted f
  entries i hi hv hback := by
    dsimp only at hv hback ⊢
    obtain ⟨hv₀, hflags, hfd, hstart, hpages⟩ := hentries i hv
    have hback₀ : toFile ((s.kernel.proc c).mapEntries i) = true := by
      rwa [toFile, hflags] at hback
    refine (h.entries i hi hv₀ hback₀).imp ?_ ?_
    · rintro ⟨huse, hzero, hnone⟩
      refine ⟨?_, (hpages huse).trans hzero, hnone⟩
      rw [← huse, MapEntry.inUse, MapEntry.inUse, hstart, hv, hv₀]
    · rintro ⟨src, hsrc, hsame⟩
      refine ⟨src, hsrc, fun f hf => ?_⟩
      rw [(hfile f).1]
      apply hsame
      rw [ofileAt_eq_ok] at hf ⊢
      rwa [hfd, hofile] at hf

theorem Sourced.start (h : init c s) : Sourced c s := by
  obtain ⟨-, hzero, hcounted, hsource⟩ := h
  refine ⟨hcounted, fun i hi hv _ => Or.inl ?_⟩
  rw [hzero i hi hv, hsource]
  exact ⟨rfl, rfl, rfl⟩

/-! ### What the calls keep -/

/-- **A descriptor is given out**, by `open` for a file without references, or by `dup`. -/
theorem Sourced.giveOut (h : Sourced c s) {fd f : ℕ} {file : File}
    (href : file.ref = (s.kernel.file f).ref + 1)
    (hip : 0 < (s.kernel.file f).ref → file.ip = (s.kernel.file f).ip)
    (hreserved : Reserved c s fd (f, file.ip)) :
    Sourced c ⟨setOfile c fd (some f) (s.kernel.setFile f file), s.source⟩ := by
  have hofile : ((setOfile c fd (some f) (s.kernel.setFile f file)).proc c).ofile =
      Function.update (s.kernel.proc c).ofile fd (some f) := by
    rw [setOfile, Kernel.modify_self]
    rfl
  have hentries : ((setOfile c fd (some f) (s.kernel.setFile f file)).proc c).mapEntries =
      (s.kernel.proc c).mapEntries := by
    rw [setOfile, Kernel.modify_self]
    rfl
  have hfile : (setOfile c fd (some f) (s.kernel.setFile f file)).file =
      Function.update s.kernel.file f file := rfl
  constructor
  · intro g
    dsimp only
    rw [hfile]
    refine le_trans (card_descriptors_give hofile) ?_
    by_cases hg : g = f
    · rw [if_pos hg, hg, Function.update_self, href]
      exact Nat.succ_le_succ (h.counted f)
    · rw [if_neg hg, Function.update_of_ne hg]
      exact h.counted g
  · intro i hi
    dsimp only
    rw [hentries, hfile]
    intro hv hback
    refine (h.entries i hi hv hback).imp id ?_
    rintro ⟨src, hsrc, hsame⟩
    refine ⟨src, hsrc, fun g hg => ?_⟩
    obtain ⟨hlo, hhi, hg⟩ := ofileAt_eq_ok.mp hg
    rw [hofile] at hg
    by_cases hfd : ((s.kernel.proc c).mapEntries i).fd.toNat = fd
    · rw [hfd, Function.update_self] at hg
      rw [← Option.some.inj hg, Function.update_self]
      exact hreserved i hi hv hback (by omega) src hsrc
    · rw [Function.update_of_ne hfd] at hg
      have hold := hsame g (ofileAt_eq_ok.mpr ⟨hlo, hhi, hg⟩)
      by_cases hgf : g = f
      · -- a descriptor that stands for the file is counted, so the file keeps its inode
        have hmem : ((s.kernel.proc c).mapEntries i).fd.toNat ∈ descriptors (s.kernel.proc c) f :=
          mem_descriptors.mpr ⟨by omega, by rw [hg, hgf]⟩
        have hpos := lt_of_lt_of_le (Finset.card_pos.mpr ⟨_, hmem⟩) (h.counted f)
        rw [hgf, Function.update_self, hip hpos, ← hgf]
        exact hold
      · rw [Function.update_of_ne hgf]
        exact hold

/-- A descriptor is given up. -/
theorem Sourced.close (h : Sourced c s) (fd : ℤ) :
    Sourced c ⟨(sys_close c fd s.kernel).1, s.source⟩ := by
  unfold sys_close
  split
  · rename_i n f harg
    unfold argfd at harg
    split at harg
    · rename_i hfd
      obtain ⟨g, hg, he⟩ := Option.map_eq_some_iff.mp harg
      cases he
      have hofile : ((fileclose f (setOfile c fd.toNat none s.kernel)).proc c).ofile =
          Function.update (s.kernel.proc c).ofile fd.toNat none := by
        rw [fileclose_proc, setOfile, Kernel.modify_self]
      have hentries : ((fileclose f (setOfile c fd.toNat none s.kernel)).proc c).mapEntries =
          (s.kernel.proc c).mapEntries := by
        rw [fileclose_proc, setOfile, Kernel.modify_self]
      constructor
      · intro g
        dsimp only
        rw [(fileclose_file ..).2]
        refine le_trans (card_descriptors_giveUp (by omega) hg hofile) ?_
        exact Nat.sub_le_sub_right (h.counted g) _
      · intro i hi
        dsimp only
        rw [hentries]
        intro hv hback
        refine (h.entries i hi hv hback).imp id ?_
        rintro ⟨src, hsrc, hsame⟩
        refine ⟨src, hsrc, fun g hg => ?_⟩
        obtain ⟨hlo, hhi, hg⟩ := ofileAt_eq_ok.mp hg
        rw [(fileclose_file ..).1]
        exact hsame g (ofileAt_eq_ok.mpr ⟨hlo, hhi, (ofile_giveUp hofile hg).2⟩)
    · cases harg
  · exact ⟨h.counted, h.entries⟩

/-- A successful `mmap` stores a record for the file that it has read. -/
theorem Sourced.mmap (h : Sourced c s) {va : ℕ}
    (hrun : sys_mmap c a ext s.kernel = .ok (k', some va)) :
    Sourced c ⟨k', Function.update s.source (s.kernel.proc c).currentMappingIndex
      (readFrom s.kernel c a)⟩ := by
  obtain ⟨-, -, d, fl, mem, file, -, hread, hfile, rfl⟩ := sys_mmap_some hrun
  have hkept : Sourced c ⟨Kernel.modify
      { s.kernel with freelist := fl, mem := mem, file := file } c
        (fun p => { p with pgdir := d, currentMappingIndex := p.currentMappingIndex + 1 }), s.source⟩ := by
    apply h.congr
    · rw [Kernel.modify_self]
    · exact fun f => ⟨hfile.ip f, hfile.ref f⟩
    · intro i
      rw [Kernel.modify_self]
      exact .refl _
  have hcounted := hkept.counted
  have hold := hkept.entries
  dsimp only at hcounted hold
  rw [Kernel.modify_self] at hcounted hold
  constructor
  · dsimp only
    rw [Kernel.modify_self]
    exact hcounted
  · dsimp only
    rw [Kernel.modify_self]
    intro i hi hv hback
    by_cases hlast : i = (s.kernel.proc c).currentMappingIndex
    · -- the new record
      subst hlast
      dsimp only at hback ⊢
      rw [Function.update_self] at hback ⊢
      rw [Function.update_self]
      have hanon : has a.flags MAP_ANONYMOUS = false := by
        have hflags : toFile (a.entry va a.pages) =
            !(has a.flags MAP_ANONYMOUS || has a.flags MAP_PRIVATE) := rfl
        rw [hflags, Bool.not_eq_true', Bool.or_eq_false_iff] at hback
        exact hback.1
      rw [readMapping, if_neg (by rw [hanon]; decide)] at hread
      obtain ⟨f, hf, -⟩ := bind_eq_ok hread
      rw [Kernel.withDir_self_proc] at hf
      have hf₀ : ofileAt (s.kernel.proc c) a.fd = .ok f := hf
      refine Or.inr ⟨(f, (s.kernel.file f).ip), ?_, ?_⟩
      · rw [readFrom, if_neg (by rw [hanon]; decide), hf₀]
        rfl
      · intro g hg
        have hg₀ : ofileAt (s.kernel.proc c) a.fd = .ok g := hg
        rw [hf₀] at hg₀
        cases hg₀
        show _ = (f, (file f).ip)
        rw [hfile.ip f]
    · dsimp only at hv hback ⊢
      rw [Function.update_of_ne hlast] at hv hback ⊢
      rw [Function.update_of_ne hlast]
      exact hold i hi hv hback

/-- Growth, and writing to a file, leave a mapping with its descriptor. -/
theorem Sourced.write (h : Sourced c s) {m : MapEntry} {va : ℕ} {b : Bool}
    (hwrite : writeMapping c m va ext s.kernel = .ok (k', b)) : Sourced c ⟨k', s.source⟩ := by
  refine writeMapping_keeps (P := fun k => Sourced c ⟨k, s.source⟩) (S := fun _ => True) ?_ ?_ ?_
    (fun _ _ _ => trivial) hwrite h
  · intro x k₁ k₂ _ hgrow hk
    obtain ⟨hb, -⟩ | ⟨j, -, hinto, pa, fl, -, ⟨hb, -⟩ | ⟨-, -, -, -, d, fl', -, rfl⟩⟩ := cangrowup_ok hgrow
    · cases hb
    · cases hb
    · have hproc : ((k₁.withDir c d fl' k₁.mem).withEntry c j ((k₁.proc c).mapEntries j).grown).proc c =
          { k₁.proc c with
            pgdir := d
            mapEntries := Function.update (k₁.proc c).mapEntries j
              ((k₁.proc c).mapEntries j).grown } := by
        unfold Kernel.withEntry
        rw [Kernel.modify_self, Kernel.withDir_self_proc]
      apply hk.congr
      · dsimp only
        rw [hproc]
      · exact fun f => ⟨rfl, rfl⟩
      · intro i
        dsimp only
        rw [hproc]
        dsimp only
        by_cases hij : i = j
        · rw [hij, Function.update_self]
          intro hv
          refine ⟨hv, rfl, rfl, rfl, fun huse => ?_⟩
          rw [(growsInto_iff.mp hinto).1] at huse
          cases huse
        · rw [Function.update_of_ne hij]
          exact .refl _
  · intro k₁ f off hk
    have hsame := SameFiles.setFile k₁ f off
    exact hk.congr rfl (fun g => ⟨hsame.ip g, hsame.ref g⟩) fun i => .refl _
  · intro k₁ inum ip hk
    exact hk.congr rfl (fun f => ⟨rfl, rfl⟩) fun i => .refl _

/-- Clearing pages and giving up the record leave the other mappings with their descriptors. -/
theorem Sourced.clear (h : Sourced c s) (d : PgDir) (fl : List ℕ) (mem : ℕ → Page) :
    Sourced c ⟨s.kernel.withDir c d fl mem, s.source⟩ := by
  apply h.congr
  · rw [Kernel.withDir_self_proc]
  · exact fun f => ⟨rfl, rfl⟩
  · intro i
    rw [Kernel.withDir_self_proc]
    exact .refl _

theorem Sourced.forget (h : Sourced c s) (j : ℕ) :
    Sourced c ⟨s.kernel.withEntry c j .unused, s.source⟩ := by
  apply h.congr
  · rw [Kernel.withEntry, Kernel.modify_self]
  · exact fun f => ⟨rfl, rfl⟩
  · intro i
    unfold Kernel.withEntry
    rw [Kernel.modify_self]
    dsimp only
    by_cases hij : i = j
    · rw [hij, Function.update_self]
      intro hv
      cases hv
    · rw [Function.update_of_ne hij]
      exact .refl _

theorem Sourced.munmap (h : Sourced c s) {virtualAddress length : ℤ} {b : Bool}
    (hrun : sys_munmap c virtualAddress length ext s.kernel = .ok (k', b)) :
    Sourced c ⟨k', s.source⟩ := by
  cases sys_munmap_exit hrun with
  | misaligned _ => exact h
  | unknown _ _ => exact h
  | write i _ _ hwrite => exact h.write hwrite
  | clear i k₁ _ _ hwrite hclear =>
    obtain ⟨m, -, d, fl, mem, rfl, -⟩ := clearPages_ok hclear
    exact (h.write hwrite).clear d fl mem
  | done i k₁ k₂ _ hwrite hclear =>
    obtain ⟨m, -, d, fl, mem, rfl, -⟩ := clearPages_ok hclear
    exact ((h.write hwrite).clear d fl mem).forget i

theorem Sourced.step (h : Sourced c s) {call : Call} (hmeets : Meets c s call)
    (hstep : WriteBack.step c s call s') : Sourced c s' := by
  cases call with
  | openFile ip readable writable =>
    cases hstep
    unfold sys_open
    split
    · rename_i f fd hf hfd
      have href := filealloc_some hf
      refine h.giveOut ?_ ?_ (hmeets f fd hf hfd)
      · rw [href]
      · intro hpos
        rw [href] at hpos
        exact absurd hpos (lt_irrefl 0)
    · exact h
  | close fd =>
    cases hstep
    exact h.close fd
  | dup fd =>
    cases hstep
    unfold sys_dup
    split
    · rename_i n f fd' harg hfd
      exact h.giveOut rfl (fun _ => rfl) (hmeets n f fd' harg hfd)
    · exact h
  | mmap a ext =>
    obtain ⟨⟨k', r⟩, h₁, h₂⟩ := bind_eq_ok hstep
    cases r with
    | some va =>
      cases h₂
      exact h.mmap h₁
    | none =>
      cases h₂
      obtain ⟨d, fl, mem, file, rfl, hfile⟩ := sys_mmap_none h₁
      exact (h.clear d fl mem).congr rfl (fun f => ⟨hfile.ip f, hfile.ref f⟩) fun i => .refl _
  | munmap virtualAddress length ext =>
    obtain ⟨⟨k', b⟩, h₁, h₂⟩ := bind_eq_ok hstep
    cases h₂
    exact h.munmap h₁

/-! ### What `munmap` writes to -/

theorem filewrite_zero {f addr : ℕ} {b : Bool} (h : filewrite c f addr 0 ext k = .ok (k', b)) :
    k' = k := by
  unfold filewrite at h
  dsimp only at h
  split at h
  · cases h
    rfl
  · split at h
    · cases h
      rfl
    · cases h
      rfl
    · cases h

/-- The write-back changes the inode of the descriptor's file and no other. -/
theorem writeMapping_inode {m : MapEntry} {va inum : ℕ} {b : Bool}
    (h : writeMapping c m va ext k = .ok (k', b)) (hne : k'.inode inum ≠ k.inode inum) :
    toFile m = true ∧ 0 < m.numPages ∧ ∃ f, ofileAt (k.proc c) m.fd = .ok f ∧ (k.file f).ip = inum := by
  unfold writeMapping at h
  split at h
  · cases h
    exact absurd rfl hne
  · rename_i hback
    obtain ⟨f, hf, h₁⟩ := bind_eq_ok h
    refine ⟨?_, ?_, f, hf, ?_⟩
    · rw [toFile, Bool.not_eq_true']
      exact Bool.not_eq_true _ ▸ hback
    · refine Nat.pos_of_ne_zero fun hzero => ?_
      rw [hzero, Nat.zero_mul] at h₁
      have hsame := filewrite_zero h₁
      rw [hsame] at hne
      exact hne rfl
    · by_contra hip
      have hkept := filewrite_keeps (S := fun _ => True)
        (P := fun k₁ => (k₁.file f).ip = (k.file f).ip ∧ k₁.inode inum = k.inode inum) ?_ ?_ ?_
        (fun _ _ => trivial) h₁ ⟨(SameFiles.setFile k f 0).ip f, rfl⟩
      · exact hne hkept.2
      · intro x k₁ k₂ _ hgrow hk
        obtain ⟨hfile, hinode⟩ := cangrowup_file hgrow
        rw [hfile, hinode]
        exact hk
      · intro k₁ off hk
        exact ⟨((SameFiles.setFile k₁ f off).ip f).trans hk.1, hk.2⟩
      · intro k₁ ip hk
        refine ⟨hk.1, ?_⟩
        dsimp only
        rw [Function.update_of_ne, hk.2]
        rw [hk.1]
        exact fun he => hip he.symm

theorem munmap_inode {virtualAddress length : ℤ} {inum : ℕ} {b : Bool}
    (h : sys_munmap c virtualAddress length ext k = .ok (k', b)) (hne : k'.inode inum ≠ k.inode inum) :
    ∃ i f, Found k c virtualAddress i ∧ target k c i = some f ∧ (k.file f).ip = inum := by
  have hwritten : ∀ {i k₁ b}, Found k c virtualAddress i →
      writeMapping c ((k.proc c).mapEntries i) (pageOf virtualAddress) ext k = .ok (k₁, b) →
      k₁.inode inum ≠ k.inode inum →
      ∃ i f, Found k c virtualAddress i ∧ target k c i = some f ∧ (k.file f).ip = inum := by
    intro i k₁ b hfound hwrite hne
    obtain ⟨hback, hpages, f, hf, hip⟩ := writeMapping_inode hwrite hne
    refine ⟨i, f, hfound, ?_, hip⟩
    rw [target, if_pos ⟨hback, hpages⟩, hf]
    rfl
  cases sys_munmap_exit h with
  | misaligned _ => exact absurd rfl hne
  | unknown _ _ => exact absurd rfl hne
  | write i _ hfound hwrite => exact hwritten hfound hwrite hne
  | clear i k₁ _ hfound hwrite hclear =>
    obtain ⟨m, -, d, fl, mem, rfl, -⟩ := clearPages_ok hclear
    exact hwritten hfound hwrite hne
  | done i k₁ k₂ hfound hwrite hclear =>
    obtain ⟨m, -, d, fl, mem, rfl, -⟩ := clearPages_ok hclear
    exact hwritten hfound hwrite hne

theorem Sourced.faithful (h : Sourced c s) : Faithful c s := by
  intro virtualAddress
  refine ⟨fun i f hfound htarget => ?_, fun length ext k' b hrun inum hne => munmap_inode hrun hne⟩
  obtain ⟨hi, hv, -⟩ := findmappingmetadata_some hfound.found
  unfold target at htarget
  split at htarget
  · rename_i hwrites
    obtain ⟨-, hzero, -⟩ | ⟨src, hsrc, hsame⟩ := h.entries i hi hv hwrites.1
    · rw [hzero] at hwrites
      exact absurd hwrites.2 (lt_irrefl 0)
    · cases hf : ofileAt (s.kernel.proc c) ((s.kernel.proc c).mapEntries i).fd with
      | error e =>
        rw [hf] at htarget
        cases htarget
      | ok g =>
        rw [hf] at htarget
        cases htarget
        rw [hsrc, hsame f hf]
  · cases htarget

/-- **Every `munmap` writes to the file that the mapping was read from**, and to no other, in runs in which
no descriptor that a mapping names is given out for another file. -/
theorem written_back (h : Reach (init c) (step c) (Meets c) s) : Faithful c s := by
  refine Sourced.faithful ?_
  exact h.invariant (fun s hs => Sourced.start hs) fun s call s' hs hg hstep => hs.step hg hstep

/-! ### A descriptor that is used again -/

/-- A process without descriptors and mappings. -/
def start : State where
  kernel := tabled fun _ => none
  source := fun _ => none

/-- One page of descriptor `0`, shared, at the lowest address. -/
def sharedPage : MmapArgs where
  virtualAddress := 0x60000000
  length := 4096
  prot := 3
  flags := MAP_SHARED ||| MAP_FIXED
  fd := 0
  offset := 0

theorem start_init : init 0 start := by
  refine ⟨rfl, ?_, ?_, rfl⟩
  · intro i _ hv
    cases hv
  · intro f
    have hempty : descriptors (start.kernel.proc 0) f = ∅ := by
      ext fd
      rw [mem_descriptors]
      constructor
      · rintro ⟨-, hf⟩
        cases hf
      · intro hmem
        cases hmem
    rw [hempty]
    exact Nat.zero_le _

/-- `open` of inode `ip`, where descriptor `0` and open file `0` are free. -/
theorem sys_open_first (ip : ℕ) (href : (k.file 0).ref = 0) (hfd : (k.proc 0).ofile 0 = none) :
    sys_open 0 ip true true k =
      (setOfile 0 0 (some 0) (k.setFile 0 ⟨.FD_INODE, 1, true, true, ip, 0⟩), some 0) := by
  have hfile : filealloc k = some 0 := by
    unfold filealloc
    exact List.find?_range_eq_some.mpr ⟨decide_eq_true href, by decide, fun j hj => absurd hj (by omega)⟩
  have hfree : fdalloc (k.proc 0) = some 0 := by
    unfold fdalloc
    refine List.find?_range_eq_some.mpr ⟨?_, by decide, fun j hj => absurd hj (by omega)⟩
    rw [hfd]
    rfl
  rw [sys_open, hfile, hfree]

/-- The process has opened inode `1` and mapped a page of it. -/
structure Mapping (s : State) : Prop where
  reached : Reach (init 0) (step 0) (Meets 0) s
  target : target s.kernel 0 0 = some 0
  found : Found s.kernel 0 0x60000000 0
  source : s.source 0 = some (0, 1)
  ofile : (s.kernel.proc 0).ofile = Function.update (fun _ => none) 0 (some 0)
  ref : (s.kernel.file 0).ref = 1
  entry : (s.kernel.proc 0).mapEntries 0 = sharedPage.entry MMAPBASE 1

theorem exists_mapping : ∃ s, Mapping s := by
  set k₁ := setOfile 0 0 (some 0) (start.kernel.setFile 0 ⟨.FD_INODE, 1, true, true, 1, 0⟩) with hk₁
  have hopen : step 0 start (.openFile 1 true true) ⟨k₁, start.source⟩ := by
    show Except.ok _ = Except.ok _
    rw [sys_open_first 1 rfl rfl]
  have hreach₁ : Reach (init 0) (step 0) (Meets 0) ⟨k₁, start.source⟩ := by
    refine .next (.start start_init) ?_ hopen
    intro f fd _ _ i _ hv
    cases hv
  have hpages : sharedPage.pages = 1 := by decide
  have hplaced : Placed k₁ 0 sharedPage MMAPBASE :=
    ⟨by decide, by decide, by decide, by decide, by decide⟩
  have hfill : Fillable k₁ 0 sharedPage := Or.inr ⟨0, rfl, rfl, rfl, rfl⟩
  obtain ⟨-, k₂, hrun⟩ | ⟨hfull, -⟩ := sys_mmap_placed ⟨none, false⟩ hplaced
    (fun _ _ => rfl) hfill
  · have hstep : step 0 ⟨k₁, start.source⟩ (.mmap sharedPage ⟨none, false⟩)
        ⟨k₂, Function.update start.source 0 (some (0, 1))⟩ := by
      show (sys_mmap 0 sharedPage ⟨none, false⟩ k₁ >>= _) = _
      rw [hrun]
      rfl
    obtain ⟨-, -, d, fl, mem, file, -, -, hfile, hk₂⟩ := sys_mmap_some hrun
    have hproc : k₂.proc 0 = { k₁.proc 0 with
        pgdir := d
        mapEntries := Function.update (fun _ => .unused) 0 (sharedPage.entry MMAPBASE 1)
        currentMappingIndex := 1 } := by
      rw [hk₂, Kernel.modify_self]
      rfl
    have hfirst : (k₂.proc 0).mapEntries 0 = sharedPage.entry MMAPBASE 1 := by
      rw [hproc]
      rfl
    have hofile : (k₂.proc 0).ofile = Function.update (fun _ => none) 0 (some 0) := by
      rw [hproc]
      rfl
    have hother : ∀ j, j ≠ 0 → (k₂.proc 0).mapEntries j = .unused := fun j hj => by
      rw [hproc]
      dsimp only
      rw [Function.update_of_ne hj]
    refine ⟨_, .next hreach₁ (by trivial) hstep, ?_, ⟨by decide, ?_⟩, rfl, hofile, ?_, hfirst⟩
    · rw [WriteBack.target, hfirst, if_pos (by decide)]
      unfold ofileAt
      rw [if_pos (by decide), hofile]
      rfl
    · apply findmappingmetadata_eq (by decide)
      · rw [hfirst]
        rfl
      · rw [hfirst]
        decide
      · intro j _ hv _
        by_contra hj
        rw [hother j hj] at hv
        cases hv
    · rw [hk₂]
      exact (hfile.ref 0).trans rfl
  · exact absurd hfull (by decide)

/-- A page of inode `1` is mapped, and written back to it. -/
theorem written_back_one : ∃ s, Reach (init 0) (step 0) (Meets 0) s ∧ target s.kernel 0 0 = some 0 ∧
    Faithful 0 s := by
  obtain ⟨s, hs⟩ := exists_mapping
  exact ⟨s, hs.reached, hs.target, written_back hs.reached⟩

/-- The descriptor of a mapping is closed and then given out for inode `2`: `munmap` writes to that. -/
theorem descriptor_reused :
    ¬∀ c s, Reach (init c) (step c) (fun _ _ => True) s → Faithful c s := by
  intro hall
  obtain ⟨s, hs⟩ := exists_mapping
  set k₁ := fileclose 0 (setOfile 0 0 none s.kernel) with hk₁
  have hclose : step 0 s (.close 0) ⟨k₁, s.source⟩ := by
    have harg : argfd (s.kernel.proc 0) 0 = some (0, 0) := by
      rw [argfd, if_pos (by decide), hs.ofile]
      rfl
    show Except.ok _ = Except.ok _
    rw [sys_close, harg]
  have href : (k₁.file 0).ref = 0 := by
    rw [hk₁, (fileclose_file ..).2, if_pos rfl]
    show (s.kernel.file 0).ref - 1 = 0
    rw [hs.ref]
  have hfree : (k₁.proc 0).ofile 0 = none := by
    rw [hk₁, fileclose_proc, setOfile, Kernel.modify_self]
    rfl
  set k₂ := setOfile 0 0 (some 0) (k₁.setFile 0 ⟨.FD_INODE, 1, true, true, 2, 0⟩) with hk₂
  have hopen : step 0 ⟨k₁, s.source⟩ (.openFile 2 true true) ⟨k₂, s.source⟩ := by
    show Except.ok _ = Except.ok _
    rw [sys_open_first 2 href hfree]
  have hreach : Reach (init 0) (step 0) (fun _ _ => True) ⟨k₂, s.source⟩ :=
    .next (.next (hs.reached.mono fun _ _ _ => trivial) trivial hclose) trivial hopen
  have hentries : (k₂.proc 0).mapEntries = (s.kernel.proc 0).mapEntries := by
    rw [hk₂, setOfile, Kernel.modify_self]
    show (k₁.proc 0).mapEntries = _
    rw [hk₁, fileclose_proc, setOfile, Kernel.modify_self]
  have hofile : (k₂.proc 0).ofile 0 = some 0 := by
    rw [hk₂, setOfile, Kernel.modify_self]
    rfl
  have htarget : target k₂ 0 0 = some 0 := by
    rw [target, hentries, hs.entry, if_pos (by decide)]
    unfold ofileAt
    rw [if_pos (by decide)]
    show (match (k₂.proc 0).ofile 0 with
      | some f => Except.ok f
      | none => Except.error Fault.nullFile).toOption = some 0
    rw [hofile]
    rfl
  have hfound : Found k₂ 0 0x60000000 0 := by
    refine ⟨by decide, ?_⟩
    rw [← hs.found.found, findmappingmetadata, findmappingmetadata, hentries]
  have hsource := (hall 0 ⟨k₂, s.source⟩ hreach 0x60000000).1 0 0 hfound htarget
  rw [hs.source] at hsource
  have hip : (k₂.file 0).ip = 2 := rfl
  rw [hip] at hsource
  cases hsource

end OperatingSystems.Vm.WriteBack
