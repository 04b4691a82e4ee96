import Mathlib
import OperatingSystems.Lib.GuardedRuns
import OperatingSystems.Vm.Steps

/-!
# How long the mapping records last

Runs of `mmap` and `munmap` of one process, from a process without mappings.  A ghost table remembers
for each address that `mmap` has returned, until `munmap` of it succeeds, what the mapping was made
with.

* **`Separate`** — the invariant: unused entries above the index, different addresses, and no guard page
  inside another mapping.
* **`Meets`** — the condition on `mmap`: an entry is left, at least one page is asked for, and the pages
  of all records are present.
* **`records_kept`** — in runs that meet it, every record is found, with what it was made with.
-/

namespace OperatingSystems.Vm.Records

open GuardedRuns Outcomes

/-! ### Runs -/

/-- What a mapping was made with. -/
structure Made where
  flags : BitVec 32
  fd : ℤ
  numPages : ℕ

structure State where
  kernel : Kernel
  made : ℕ → Option Made

inductive Call
  | mmap (a : MmapArgs) (ext : External)
  | munmap (virtualAddress length : ℤ) (ext : External)

def next (c : Slot) (s : State) : Call → Except Fault State
  | .mmap a ext => do
    let (kernel, r) ← sys_mmap c a ext s.kernel
    match r with
    | some va => return ⟨kernel, Function.update s.made va (some ⟨a.flags, a.fd, a.pages⟩)⟩
    | none => return ⟨kernel, s.made⟩
  | .munmap virtualAddress length ext => do
    let (kernel, unmapped) ← sys_munmap c virtualAddress length ext s.kernel
    if unmapped then return ⟨kernel, Function.update s.made (pageOf virtualAddress) none⟩
    else return ⟨kernel, s.made⟩

def step (c : Slot) (s : State) (call : Call) (s' : State) : Prop :=
  next c s call = .ok s'

/-- The process has no mapping yet; its entries are invalid, or zero as in the first process. -/
def init (c : Slot) (s : State) : Prop :=
  (s.kernel.proc c).currentMappingIndex = 0 ∧
    (∀ i < NMAP, ((s.kernel.proc c).mapEntries i).isValid = true →
      (s.kernel.proc c).mapEntries i = ⟨0, 0, 0, 0, true, 0⟩) ∧
    s.made = fun _ => none

/-- **In one state**, what a mapping was made with is found under its address. -/
def Kept (c : Slot) (s : State) : Prop :=
  ∀ va m, s.made va = some m → ∃ i < NMAP, findmappingmetadata (s.kernel.proc c) va = some i ∧
    ((s.kernel.proc c).mapEntries i).flags = m.flags ∧
    ((s.kernel.proc c).mapEntries i).fd = m.fd ∧
    ((s.kernel.proc c).mapEntries i).numPages = m.numPages

/-! ### The condition -/

/-- The pages of every record are present. -/
def Intact (p : Proc) : Prop :=
  ∀ i < NMAP, (p.mapEntries i).inUse = true →
    ∀ j < (p.mapEntries i).numPages,
      (p.pgdir.pte ((p.mapEntries i).startingVirtualAddress + j)).isSome

/-- An `mmap` finds an entry, asks for at least a page, and finds the mappings intact. -/
def Meets (c : Slot) (s : State) : Call → Prop
  | .mmap a _ => (s.kernel.proc c).currentMappingIndex < NMAP ∧ 0 < a.pages ∧
      Intact (s.kernel.proc c)
  | .munmap .. => True

/-! ### The invariant -/

/-- The records of a process are apart from each other. -/
structure Separate (p : Proc) : Prop where
  unused : ∀ i < NMAP, p.currentMappingIndex ≤ i → (p.mapEntries i).inUse = false
  blank : ∀ i < NMAP, (p.mapEntries i).isValid = true →
    (p.mapEntries i).inUse = true ∨ (p.mapEntries i).numPages = 0
  pages : ∀ i < NMAP, (p.mapEntries i).inUse = true → 0 < (p.mapEntries i).numPages
  starts : ∀ i < NMAP, ∀ j < NMAP, (p.mapEntries i).inUse = true → (p.mapEntries j).inUse = true →
    (p.mapEntries i).startingVirtualAddress = (p.mapEntries j).startingVirtualAddress → i = j
  guard : ∀ i < NMAP, (p.mapEntries i).inUse = true → has (p.mapEntries i).flags MAP_GROWSUP = true →
    (p.mapEntries i).guardPageVirtualAddress =
      (p.mapEntries i).startingVirtualAddress + (p.mapEntries i).numPages
  outside : ∀ i < NMAP, ∀ j < NMAP, (p.mapEntries i).inUse = true → (p.mapEntries j).inUse = true →
    has (p.mapEntries i).flags MAP_GROWSUP = true →
    ∀ x, (p.mapEntries j).startingVirtualAddress ≤ x →
      x < (p.mapEntries j).startingVirtualAddress + (p.mapEntries j).numPages →
      x ≠ (p.mapEntries i).startingVirtualAddress + (p.mapEntries i).numPages

variable {c : Slot} {k k' : Kernel} {p p' : Proc} {s s' : State} {a : MmapArgs} {ext : External}

theorem Separate.congr (h : Separate p) (hentries : p'.mapEntries = p.mapEntries)
    (hindex : p'.currentMappingIndex = p.currentMappingIndex) : Separate p' := by
  obtain ⟨h1, h2, h3, h4, h5, h6⟩ := h
  refine ⟨?_, ?_, ?_, ?_, ?_, ?_⟩ <;> rw [hentries]
  · rwa [hindex]
  · exact h2
  · exact h3
  · exact h4
  · exact h5
  · exact h6

/-- An entry in use lies below the index. -/
theorem Separate.lt (h : Separate p) {i : ℕ} (hi : i < NMAP) (hu : (p.mapEntries i).inUse = true) :
    i < p.currentMappingIndex := by
  by_contra hle
  rw [h.unused i hi (not_lt.mp hle)] at hu
  cases hu

/-- The first page of a record is present in an intact process. -/
theorem Separate.first (h : Separate p) (hintact : Intact p) {i : ℕ} (hi : i < NMAP)
    (hu : (p.mapEntries i).inUse = true) :
    (p.pgdir.pte (p.mapEntries i).startingVirtualAddress).isSome :=
  hintact i hi hu 0 (h.pages i hi hu)

theorem guardOk_pte {va n : ℕ} (h : guardOk p a va n = true)
    (hg : has a.flags MAP_GROWSUP = true) (hva : va + n ≤ KERNBASE) :
    p.pgdir.pte (va + n) = none := by
  unfold guardOk at h
  rw [hg] at h
  exact canallocatva_pte h hva (le_refl _) (Nat.lt_succ_self _)

/-- **A new record is apart from the others** if the mappings are intact: their pages are present, and
the pages that were found free are not. -/
theorem Separate.add (h : Separate p) (hintact : Intact p) {va n : ℕ} {d : PgDir}
    (hn : 0 < n) (hlo : MMAPBASE ≤ va) (hhi : va < KERNBASE)
    (hfree : canallocatva p va n = true) (hguard : guardOk p a va n = true) :
    Separate { p with
      pgdir := d
      mapEntries := Function.update p.mapEntries p.currentMappingIndex (a.entry va n)
      currentMappingIndex := p.currentMappingIndex + 1 } := by
  have hle := canallocatva_le hfree hhi.le
  have huse : (a.entry va n).inUse = true := inUse_iff.mpr ⟨rfl, hlo, hhi⟩
  have hold : ∀ i, i ≠ p.currentMappingIndex →
      Function.update p.mapEntries p.currentMappingIndex (a.entry va n) i = p.mapEntries i :=
    fun i hi => Function.update_of_ne hi ..
  have hnew : Function.update p.mapEntries p.currentMappingIndex (a.entry va n)
      p.currentMappingIndex = a.entry va n := Function.update_self ..
  have hfirst : ∀ i < NMAP, (p.mapEntries i).inUse = true →
      (p.mapEntries i).startingVirtualAddress ≠ va := by
    intro i hi hu he
    have hs := h.first hintact hi hu
    rw [he, canallocatva_pte hfree hhi.le (le_refl _) (by omega)] at hs
    cases hs
  refine ⟨?_, ?_, ?_, ?_, ?_, ?_⟩ <;> dsimp only
  · intro i hi hle
    rw [hold i (by omega)]
    exact h.unused i hi (by omega)
  · intro i hi hv
    by_cases he : i = p.currentMappingIndex
    · rw [he, hnew]
      exact Or.inl huse
    · rw [hold i he] at hv ⊢
      exact h.blank i hi hv
  · intro i hi hu
    by_cases he : i = p.currentMappingIndex
    · rw [he, hnew]
      exact hn
    · rw [hold i he] at hu ⊢
      exact h.pages i hi hu
  · intro i hi j hj hui huj hs
    by_cases hei : i = p.currentMappingIndex <;> by_cases hej : j = p.currentMappingIndex
    · rw [hei, hej]
    · rw [hei, hnew] at hs
      rw [hold j hej] at hs huj
      exact absurd hs.symm (hfirst j hj huj)
    · rw [hej, hnew] at hs
      rw [hold i hei] at hs hui
      exact absurd hs (hfirst i hi hui)
    · rw [hold i hei] at hs hui
      rw [hold j hej] at hs huj
      exact h.starts i hi j hj hui huj hs
  · intro i hi hu hg
    by_cases he : i = p.currentMappingIndex
    · rw [he, hnew] at hg ⊢
      exact if_pos hg
    · rw [hold i he] at hu hg ⊢
      exact h.guard i hi hu hg
  · intro i hi j hj hui huj hg x hx hxn hxe
    by_cases hei : i = p.currentMappingIndex <;> by_cases hej : j = p.currentMappingIndex
    · rw [hei, hnew] at hxe
      rw [hej, hnew] at hxn
      exact absurd hxe (Nat.ne_of_lt hxn)
    · rw [hei, hnew] at hxe hg
      rw [hold j hej] at hx hxn huj
      have hs := hintact j hj huj (x - (p.mapEntries j).startingVirtualAddress) (by omega)
      rw [Nat.add_sub_cancel' hx, hxe,
        show (a.entry va n).startingVirtualAddress + (a.entry va n).numPages = va + n from rfl,
        guardOk_pte hguard hg hle] at hs
      cases hs
    · rw [hej, hnew] at hx hxn
      rw [hold i hei] at hxe hg hui
      rw [← h.guard i hi hui hg] at hxe
      exact canallocatva_guard hfree hx hxn (h.lt hi hui).le hui hxe.symm
    · rw [hold i hei] at hxe hg hui
      rw [hold j hej] at hx hxn huj
      exact h.outside i hi j hj hui huj hg x hx hxn hxe

/-- An entry is given up. -/
theorem Separate.remove (h : Separate p) (i₀ : ℕ) (d : PgDir) :
    Separate { p with
      pgdir := d
      mapEntries := Function.update p.mapEntries i₀ .unused } := by
  have hold : ∀ i, (Function.update p.mapEntries i₀ .unused i).isValid = true →
      Function.update p.mapEntries i₀ .unused i = p.mapEntries i := by
    intro i hv
    by_cases hi : i = i₀
    · rw [hi, Function.update_self] at hv
      cases hv
    · exact Function.update_of_ne hi ..
  have huse : ∀ i, (Function.update p.mapEntries i₀ .unused i).inUse = true →
      Function.update p.mapEntries i₀ .unused i = p.mapEntries i :=
    fun i hu => hold i (inUse_iff.mp hu).1
  refine ⟨?_, ?_, ?_, ?_, ?_, ?_⟩ <;> dsimp only
  · intro i hi hle
    by_contra hu
    rw [Bool.not_eq_false] at hu
    rw [huse i hu] at hu
    rw [h.unused i hi hle] at hu
    cases hu
  · intro i hi hv
    have he := hold i hv
    rw [he] at hv ⊢
    exact h.blank i hi hv
  · intro i hi hu
    have he := huse i hu
    rw [he] at hu ⊢
    exact h.pages i hi hu
  · intro i hi j hj hui huj
    have hei := huse i hui
    have hej := huse j huj
    rw [hei] at hui ⊢
    rw [hej] at huj ⊢
    exact h.starts i hi j hj hui huj
  · intro i hi hu
    have he := huse i hu
    rw [he] at hu ⊢
    exact h.guard i hi hu
  · intro i hi j hj hui huj
    have hei := huse i hui
    have hej := huse j huj
    rw [hei] at hui ⊢
    rw [hej] at huj ⊢
    exact h.outside i hi j hj hui huj

/-! ### What the calls keep -/

/-- **No mapping grows while another one is written back**: a guard page lies in no mapping. -/
theorem writeMapping_entries (h : Separate (k.proc c)) {va i : ℕ} {b : Bool}
    (hi : findmappingmetadata (k.proc c) va = some i)
    (hwrite : writeMapping c ((k.proc c).mapEntries i) va ext k = .ok (k', b)) :
    (k'.proc c).mapEntries = (k.proc c).mapEntries ∧
      (k'.proc c).currentMappingIndex = (k.proc c).currentMappingIndex := by
  obtain ⟨hlt, hv, rfl⟩ := findmappingmetadata_some hi
  refine writeMapping_keeps
    (P := fun k₁ => (k₁.proc c).mapEntries = (k.proc c).mapEntries ∧
      (k₁.proc c).currentMappingIndex = (k.proc c).currentMappingIndex)
    (S := fun x => ((k.proc c).mapEntries i).startingVirtualAddress ≤ x ∧
      x < ((k.proc c).mapEntries i).startingVirtualAddress + ((k.proc c).mapEntries i).numPages)
    ?_ ?_ ?_ ?_ hwrite ⟨rfl, rfl⟩
  · intro x k₁ k₂ hx hg hk
    obtain ⟨hb, -⟩ | ⟨j, -, hgrow, pa, fl, -, ⟨hb, -⟩ | ⟨-, hj, -, -, -⟩⟩ := cangrowup_ok hg
    · cases hb
    · cases hb
    · rw [hk.1] at hgrow
      obtain ⟨huj, hflag, he, -⟩ := growsInto_iff.mp hgrow
      have hui : ((k.proc c).mapEntries i).inUse = true := by
        rcases h.blank i hlt hv with hu | hz
        · exact hu
        · rw [hz] at hx
          omega
      exact absurd he (h.outside j hj i hlt huj hui hflag x hx.1 hx.2)
  · intro k₁ f off hk
    exact hk
  · intro k₁ inum ip hk
    exact hk
  · intro x hx hxn
    exact ⟨hx, hxn⟩

/-- The records are apart, and each remembered mapping has its record. -/
structure Recorded (c : Slot) (s : State) : Prop where
  separate : Separate (s.kernel.proc c)
  made : ∀ va m, s.made va = some m → ∃ i < NMAP,
    ((s.kernel.proc c).mapEntries i).inUse = true ∧
    ((s.kernel.proc c).mapEntries i).startingVirtualAddress = va ∧
    ((s.kernel.proc c).mapEntries i).flags = m.flags ∧
    ((s.kernel.proc c).mapEntries i).fd = m.fd ∧
    ((s.kernel.proc c).mapEntries i).numPages = m.numPages

theorem Recorded.kept (h : Recorded c s) : Kept c s := by
  intro va m hm
  obtain ⟨i, hi, hu, hs, hfields⟩ := h.made va m hm
  refine ⟨i, hi, findmappingmetadata_eq hi (inUse_iff.mp hu).1 hs ?_, hfields⟩
  intro j hj hv hjs
  have hrange := (inUse_iff.mp hu).2
  rw [hs] at hrange
  refine h.separate.starts j hj i hi (inUse_iff.mpr ⟨hv, ?_⟩) hu (hjs.trans hs.symm)
  rw [hjs]
  exact hrange

theorem Recorded.congr (h : Recorded c s)
    (hentries : (s'.kernel.proc c).mapEntries = (s.kernel.proc c).mapEntries)
    (hindex : (s'.kernel.proc c).currentMappingIndex = (s.kernel.proc c).currentMappingIndex)
    (hmade : s'.made = s.made) : Recorded c s' where
  separate := h.separate.congr hentries hindex
  made := by
    rw [hmade, hentries]
    exact h.made

theorem Recorded.start (h : init c s) : Recorded c s := by
  obtain ⟨hindex, hzero, hmade⟩ := h
  have hunused : ∀ i < NMAP, ((s.kernel.proc c).mapEntries i).inUse = false := by
    intro i hi
    by_contra hu
    rw [Bool.not_eq_false] at hu
    have hz := hzero i hi (inUse_iff.mp hu).1
    rw [hz] at hu
    exact absurd hu (by decide)
  have hno : ∀ {q : Prop} i, i < NMAP → ((s.kernel.proc c).mapEntries i).inUse = true → q := by
    intro q i hi hu
    rw [hunused i hi] at hu
    cases hu
  constructor
  · refine ⟨fun i hi _ => hunused i hi, ?_, fun i hi hu => hno i hi hu,
      fun i hi j hj hui _ => hno i hi hui, fun i hi hu => hno i hi hu,
      fun i hi j hj hui _ => hno i hi hui⟩
    intro i hi hv
    rw [hzero i hi hv]
    exact Or.inr rfl
  · intro va m hm
    rw [hmade] at hm
    cases hm

/-- A successful `mmap` that meets the condition. -/
theorem Recorded.mmap (h : Recorded c s) (hmeets : Meets c s (.mmap a ext)) {va : ℕ}
    (hrun : sys_mmap c a ext s.kernel = .ok (k', some va)) :
    Recorded c ⟨k', Function.update s.made va (some ⟨a.flags, a.fd, a.pages⟩)⟩ := by
  obtain ⟨-, hn, hintact⟩ := hmeets
  obtain ⟨hplaced, hindex, d, fl, mem, file, -, -, -, rfl⟩ := sys_mmap_some hrun
  obtain ⟨hlo, hhi, hfree⟩ := placeMapping_some hplaced.place
  have huse : (a.entry va a.pages).inUse = true := inUse_iff.mpr ⟨rfl, hlo, hhi⟩
  constructor
  · dsimp only
    rw [Kernel.modify_self]
    exact h.separate.add hintact hn hlo hhi hfree hplaced.guard
  · dsimp only
    rw [Kernel.modify_self]
    dsimp only
    intro va' m hm
    by_cases hva : va' = va
    · rw [hva, Function.update_self] at hm
      cases hm
      refine ⟨_, hindex, ?_⟩
      rw [Function.update_self]
      exact ⟨huse, hva.symm, rfl, rfl, rfl⟩
    · rw [Function.update_of_ne hva] at hm
      obtain ⟨i, hi, hu, hfields⟩ := h.made va' m hm
      refine ⟨i, hi, ?_⟩
      rw [Function.update_of_ne (h.separate.lt hi hu).ne]
      exact ⟨hu, hfields⟩

/-- A successful `munmap` removes one record. -/
theorem Recorded.munmap (h : Recorded c s) {virtualAddress length : ℤ} {i : ℕ} {k₁ k₂ : Kernel}
    (hfound : Found s.kernel c virtualAddress i)
    (hwrite : writeMapping c ((s.kernel.proc c).mapEntries i) (pageOf virtualAddress) ext s.kernel =
      .ok (k₁, true))
    (hclear : clearPages c (pageOf virtualAddress) (munmapPages length) k₁ = .ok (k₂, true)) :
    Recorded c ⟨k₂.withEntry c i .unused, Function.update s.made (pageOf virtualAddress) none⟩ := by
  obtain ⟨hentries, hindex⟩ := writeMapping_entries h.separate hfound.found hwrite
  obtain ⟨m, -, d, fl, mem, rfl, -⟩ := clearPages_ok hclear
  obtain ⟨hi, hv, hs⟩ := findmappingmetadata_some hfound.found
  have hp : ((k₁.withDir c d fl mem).withEntry c i .unused).proc c =
      { k₁.proc c with
        pgdir := d
        mapEntries := Function.update (s.kernel.proc c).mapEntries i .unused } := by
    unfold Kernel.withEntry
    rw [Kernel.modify_self, Kernel.withDir_self_proc]
    dsimp only
    rw [hentries]
  constructor
  · dsimp only
    rw [hp]
    exact (h.separate.remove i d).congr rfl hindex
  · dsimp only
    rw [hp]
    dsimp only
    intro va m hm
    by_cases hva : va = pageOf virtualAddress
    · rw [hva, Function.update_self] at hm
      cases hm
    · rw [Function.update_of_ne hva] at hm
      obtain ⟨j, hj, hu, hjs, hfields⟩ := h.made va m hm
      refine ⟨j, hj, ?_⟩
      rw [Function.update_of_ne]
      · exact ⟨hu, hjs, hfields⟩
      · rintro rfl
        exact hva (hjs.symm.trans hs)

theorem Recorded.step (h : Recorded c s) {call : Call} (hmeets : Meets c s call)
    (hstep : Records.step c s call s') : Recorded c s' := by
  cases call with
  | mmap a ext =>
    obtain ⟨⟨k', r⟩, h₁, h₂⟩ := bind_eq_ok hstep
    cases r with
    | some va =>
      cases h₂
      exact h.mmap hmeets h₁
    | none =>
      cases h₂
      obtain ⟨d, fl, mem, file, rfl, -⟩ := sys_mmap_none h₁
      refine h.congr ?_ ?_ rfl <;> dsimp only <;> rw [Kernel.withDir_self_proc]
  | munmap virtualAddress length ext =>
    obtain ⟨⟨k', b⟩, h₁, h₂⟩ := bind_eq_ok hstep
    cases sys_munmap_exit h₁ with
    | misaligned _ =>
      cases h₂
      exact h
    | unknown _ _ =>
      cases h₂
      exact h
    | write i _ hfound hwrite =>
      cases h₂
      obtain ⟨hentries, hindex⟩ := writeMapping_entries h.separate hfound.found hwrite
      exact h.congr hentries hindex rfl
    | clear i k₁ _ hfound hwrite hclear =>
      cases h₂
      obtain ⟨hentries, hindex⟩ := writeMapping_entries h.separate hfound.found hwrite
      obtain ⟨m, -, d, fl, mem, rfl, -⟩ := clearPages_ok hclear
      refine h.congr ?_ ?_ rfl <;> dsimp only <;> rw [Kernel.withDir_self_proc]
      · exact hentries
      · exact hindex
    | done i k₁ k₂ hfound hwrite hclear =>
      cases h₂
      exact h.munmap hfound hwrite hclear

/-- An `mmap` that meets the condition stores its record in the array. -/
theorem mmap_stores (hmeets : Meets c s (.mmap a ext)) : next c s (.mmap a ext) ≠ .error .mapIndex := by
  intro herror
  obtain h₁ | ⟨⟨k', r⟩, -, h₂⟩ := bind_eq_error herror
  · obtain ⟨he, -⟩ | ⟨he, -⟩ | ⟨-, hf⟩ | ⟨-, hle⟩ := sys_mmap_error h₁
    · cases he
    · cases he
    · rcases hf with hf | ⟨he, -⟩
      · obtain ⟨he, -⟩ | ⟨he, -⟩ := ofileAt_error hf
        · cases he
        · cases he
      · cases he
    · exact absurd hmeets.1 (not_lt.mpr hle)
  · cases r <;> cases h₂

/-- **The records last in every run that meets the condition**: each is stored in the array, and what a
mapping was made with is found under its address until its `munmap` succeeds. -/
theorem records_kept (h : Reach (init c) (step c) (Meets c) s) :
    Kept c s ∧ ∀ a ext, Meets c s (.mmap a ext) → next c s (.mmap a ext) ≠ .error .mapIndex := by
  refine ⟨Recorded.kept ?_, fun a ext hmeets => mmap_stores hmeets⟩
  exact h.invariant (fun s hs => Recorded.start hs) fun s call s' hs hg hstep => hs.step hg hstep

/-! ### The index runs out -/

/-- One page, private and anonymous, at the lowest address. -/
def onePage : MmapArgs where
  virtualAddress := 0x60000000
  length := 4096
  prot := 3
  flags := MAP_PRIVATE ||| MAP_ANONYMOUS ||| MAP_FIXED
  fd := 0
  offset := 0

/-- Nothing is mapped, one page is free, and the index of the first process stands at `i`. -/
structure Lone (i : ℕ) (k : Kernel) : Prop where
  freelist : k.freelist = [500]
  kernelEnd : k.kernelEnd = 256
  pte : ∀ q, (k.proc q).pgdir.pte = fun _ => none
  table : ((k.proc 0).pgdir.table 384).isSome
  entries : (k.proc 0).mapEntries = fun _ => .unused
  index : (k.proc 0).currentMappingIndex = i

/-- The page is mapped, and its record is at index `i`. -/
structure Full (i : ℕ) (k : Kernel) : Prop where
  freelist : k.freelist = []
  kernelEnd : k.kernelEnd = 256
  pte : ∀ q ≠ 0, (k.proc q).pgdir.pte = fun _ => none
  pte_self : ∀ x, (k.proc 0).pgdir.pte x = if x = MMAPBASE then some 500 else none
  table : ((k.proc 0).pgdir.table 384).isSome
  entries : (k.proc 0).mapEntries =
    Function.update (fun _ => .unused) i (onePage.entry MMAPBASE 1)
  index : (k.proc 0).currentMappingIndex = i + 1

variable {i : ℕ}

theorem Lone.free (h : Lone i k) : canallocatva (k.proc 0) MMAPBASE 1 = true := by
  refine canallocatva_iff.mpr fun j hj => ⟨?_, ?_⟩
  · rw [Bool.eq_false_iff]
    intro hg
    obtain ⟨l, -, hu, -⟩ := isguardpage_iff.mp hg
    rw [h.entries] at hu
    cases hu
  · rw [present_of_lt (by rw [show j = 0 by omega]; decide), h.pte]
    rfl

theorem onePage_pages : onePage.pages = 1 := by
  decide

theorem Lone.placed (h : Lone i k) : Placed k 0 onePage MMAPBASE := by
  refine ⟨by decide, by decide, ?_, ?_, rfl⟩
  · rw [h.freelist]
    decide
  · unfold placeMapping
    rw [if_pos (by decide)]
    dsimp only
    rw [show pageOf onePage.virtualAddress = MMAPBASE by decide, if_neg (by decide), onePage_pages,
      if_pos h.free]

theorem Lone.tables (h : Lone i k) :
    ∀ j < onePage.pages, ((k.proc 0).pgdir.table ((MMAPBASE + j) / 1024)).isSome := by
  intro j hj
  rw [onePage_pages] at hj
  rw [show (MMAPBASE + j) / 1024 = 384 by rw [show j = 0 by omega]; decide]
  exact h.table

theorem Lone.fillable (k : Kernel) : Fillable k 0 onePage :=
  Or.inl (by decide)

/-- `mmap` maps the page as long as there is an entry. -/
theorem Lone.mmap (h : Lone i k) (hi : i < NMAP) (ext : External) :
    ∃ k', sys_mmap 0 onePage ext k = .ok (k', some MMAPBASE) ∧ Full i k' := by
  obtain ⟨-, k', hrun⟩ | ⟨hle, -⟩ := sys_mmap_placed ext h.placed h.tables (Lone.fillable k)
  · refine ⟨k', hrun, ?_⟩
    obtain ⟨-, hindex, d, fl, mem, file, hmapped, -, -, rfl⟩ := sys_mmap_some hrun
    have hgot : onePage.got k = [500] := by
      rw [MmapArgs.got, h.freelist]
      rfl
    have hfl : fl = [] := by
      obtain ⟨ts, hts, -⟩ := hmapped.tables
      rw [h.freelist, onePage_pages] at hts
      exact (List.append_eq_nil_iff.mp hts.symm).2
    refine ⟨hfl, h.kernelEnd, fun q hq => ?_, ?_, ?_, ?_, ?_⟩
    · rw [Kernel.modify_of_ne _ hq]
      exact h.pte q
    · intro x
      rw [Kernel.modify_self]
      show d.pte x = _
      rw [hmapped.pte, hgot, h.pte]
      by_cases hx : x = MMAPBASE
      · rw [if_pos hx, hx, if_pos ⟨le_refl _, Nat.lt_succ_self _⟩, Nat.sub_self]
        rfl
      · rw [if_neg hx, if_neg]
        rintro ⟨h1, h2⟩
        exact hx (le_antisymm (Nat.lt_succ_iff.mp h2) h1)
    · rw [Kernel.modify_self]
      exact hmapped.table_isSome h.table
    · rw [Kernel.modify_self]
      show Function.update (k.proc 0).mapEntries (k.proc 0).currentMappingIndex _ = _
      rw [h.index, h.entries, onePage_pages]
    · rw [Kernel.modify_self]
      show (k.proc 0).currentMappingIndex + 1 = i + 1
      rw [h.index]
  · rw [h.index] at hle
    exact absurd hi (not_lt.mpr hle)

/-- Without an entry it writes behind the array. -/
theorem Lone.overflow (h : Lone NMAP k) (ext : External) :
    sys_mmap 0 onePage ext k = .error .mapIndex := by
  obtain ⟨hlt, -⟩ | ⟨-, herror⟩ := sys_mmap_placed ext h.placed h.tables (Lone.fillable k)
  · rw [h.index] at hlt
    exact absurd hlt (lt_irrefl _)
  · exact herror

theorem Full.found (h : Full i k) (hi : i < NMAP) : Found k 0 0x60000000 i := by
  refine ⟨by decide, findmappingmetadata_eq hi ?_ ?_ ?_⟩
  · rw [h.entries, Function.update_self]
    rfl
  · rw [h.entries, Function.update_self]
    decide
  · intro j _ hv _
    by_contra hj
    rw [h.entries, Function.update_of_ne hj] at hv
    cases hv

theorem Full.written (h : Full i k) (va : ℕ) (ext : External) :
    writeMapping 0 ((k.proc 0).mapEntries i) va ext k = .ok (k, true) := by
  rw [h.entries, Function.update_self]
  exact if_pos (by decide)

/-- `munmap` frees the page and the entry, but the index stays. -/
theorem Full.munmap (h : Full i k) (hi : i < NMAP) (ext : External) :
    ∃ k', sys_munmap 0 0x60000000 4096 ext k = .ok (k', true) ∧ Lone (i + 1) k' := by
  have hva : pageOf 0x60000000 = MMAPBASE := by decide
  have hn : munmapPages 4096 = 1 := by decide
  have hself : (k.proc 0).pgdir.pte MMAPBASE = some 500 := by
    rw [h.pte_self, if_pos rfl]
  have hle : pageOf 0x60000000 + munmapPages 4096 ≤ KERNBASE := by decide
  obtain ⟨k₂, hclear, hrun⟩ := sys_munmap_succeeds (h.found hi) (h.written _ ext) hle (by
      intro j hj
      rw [hn] at hj
      refine ⟨500, ?_, ?_⟩
      · rw [hva, show j = 0 by omega]
        exact hself
      · unfold Kernel.Freeable
        rw [h.kernelEnd]
        decide)
  refine ⟨_, hrun, ?_⟩
  rw [hva, hn] at hclear
  obtain ⟨⟨k₃, b⟩, h₁, h₂⟩ := bind_eq_ok hclear
  dsimp only at h₂
  obtain ⟨rfl, -⟩ | ⟨pte, fl, mem, rfl, hwalk, rfl, hfl⟩ := clearpte_ok h₁
  · cases h₂
  · cases h₂
    have hpte' : pte.getD 0 = 500 := by
      unfold walkpgdir at hwalk
      rw [if_pos (by decide)] at hwalk
      obtain ⟨t, -, rfl⟩ := Option.map_eq_some_iff.mp hwalk
      rw [hself]
      rfl
    rw [hpte'] at hfl
    have hpte : ∀ fl' mem' q, ((k.withDir 0 ((k.proc 0).pgdir.clear MMAPBASE) fl' mem').proc q).pgdir.pte =
        fun _ => none := by
      intro fl' mem' q
      by_cases hq : q = 0
      · rw [hq, Kernel.withDir_self_proc]
        funext x
        show Function.update (k.proc 0).pgdir.pte MMAPBASE none x = none
        by_cases hx : x = MMAPBASE
        · rw [hx, Function.update_self]
        · rw [Function.update_of_ne hx, h.pte_self, if_neg hx]
      · rw [Kernel.withDir_proc_of_ne _ _ _ _ _ hq, h.pte q hq]
    have hfl' : fl = [500] := by
      rcases hfl with ⟨-, -, q, -, l, -, hmap⟩ | ⟨rfl, -⟩
      · rw [hpte] at hmap
        cases hmap
      · rw [h.freelist]
    refine ⟨hfl', h.kernelEnd, fun q => ?_, ?_, ?_, ?_⟩
    · unfold Kernel.withEntry
      by_cases hq : q = 0
      · rw [hq, Kernel.modify_self]
        exact hpte fl mem 0
      · rw [Kernel.modify_of_ne _ hq]
        exact hpte fl mem q
    · unfold Kernel.withEntry
      rw [Kernel.modify_self, Kernel.withDir_self_proc]
      exact h.table
    · unfold Kernel.withEntry
      rw [Kernel.modify_self, Kernel.withDir_self_proc]
      show Function.update (k.proc 0).mapEntries i .unused = fun _ => .unused
      rw [h.entries, Function.update_idem]
      exact Function.update_eq_self i fun _ => MapEntry.unused
    · unfold Kernel.withEntry
      rw [Kernel.modify_self, Kernel.withDir_self_proc]
      exact h.index

/-- At most `n` mappings exist. -/
def AtMost (n : ℕ) (s : State) : Prop :=
  ∃ t : Finset ℕ, t.card ≤ n ∧ ∀ va, (s.made va).isSome → va ∈ t

/-- A step after which at most 99 mappings exist. -/
def stepFew (c : Slot) (s : State) (call : Call) (s' : State) : Prop :=
  step c s call s' ∧ AtMost 99 s'

/-- What lies outside does not matter here. -/
def quiet : External := ⟨none, false⟩

theorem reach_lone (s₀ : State) (hinit : init 0 s₀) (hlone : Lone 0 s₀.kernel) (i : ℕ) (hi : i ≤ NMAP) :
    ∃ s, Reach (init 0) (stepFew 0) (fun _ _ => True) s ∧ Lone i s.kernel ∧
      s.made = fun _ => none := by
  induction i with
  | zero => exact ⟨s₀, .start hinit, hlone, hinit.2.2⟩
  | succ i ih =>
    obtain ⟨s, hreach, hl, hmade⟩ := ih (Nat.le_of_succ_le hi)
    obtain ⟨k₁, h₁, hf⟩ := hl.mmap hi quiet
    obtain ⟨k₂, h₂, hl'⟩ := hf.munmap hi quiet
    have hs₁ : stepFew 0 s (.mmap onePage quiet) ⟨k₁, Function.update s.made MMAPBASE
        (some ⟨onePage.flags, onePage.fd, onePage.pages⟩)⟩ := by
      refine ⟨?_, {MMAPBASE}, by decide, ?_⟩
      · show (sys_mmap 0 onePage quiet s.kernel >>= _) = _
        rw [h₁]
        rfl
      · intro va hva
        by_contra hne
        rw [Finset.mem_singleton] at hne
        dsimp only at hva
        rw [Function.update_of_ne hne, hmade] at hva
        cases hva
    have hback : Function.update (Function.update s.made MMAPBASE
        (some ⟨onePage.flags, onePage.fd, onePage.pages⟩)) (pageOf 0x60000000) none =
        fun _ => none := by
      rw [show pageOf 0x60000000 = MMAPBASE by decide, Function.update_idem, hmade]
      exact Function.update_eq_self MMAPBASE fun _ => none
    have hs₂ : stepFew 0 ⟨k₁, Function.update s.made MMAPBASE
        (some ⟨onePage.flags, onePage.fd, onePage.pages⟩)⟩
        (.munmap 0x60000000 4096 quiet) ⟨k₂, fun _ => none⟩ := by
      refine ⟨?_, ∅, by decide, ?_⟩
      · show (sys_munmap 0 0x60000000 4096 quiet k₁ >>= _) = _
        rw [h₂, ok_bind]
        show Except.ok (State.mk _ _) = _
        rw [hback]
      · intro va hva
        cases hva
    exact ⟨_, .next (.next hreach trivial hs₁) trivial hs₂, hl', rfl⟩

/-- A kernel with one free page, and with a page of entries for the first process. -/
def start : State where
  kernel :=
    { freelist := [500]
      mem := fun _ _ => 0
      proc := fun _ =>
        { sz := 0
          pgdir := ⟨[], fun _ => some 300, fun _ => none, by intro _ _ h; cases h⟩
          kstack := 0
          state := .RUNNING
          pid := 1
          parent := none
          ofile := fun _ => none
          mapEntries := fun _ => .unused
          currentMappingIndex := 0 }
      file := fun _ => ⟨.FD_NONE, 0, false, false, 0, 0⟩
      inode := fun _ => ⟨false, 0, fun _ => 0⟩
      nextpid := 2
      initproc := 0
      kernelEnd := 256 }
  made := fun _ => none

theorem start_init : init 0 start :=
  ⟨rfl, ⟨fun _ _ hv => (by cases hv), rfl⟩⟩

theorem start_lone : Lone 0 start.kernel :=
  ⟨rfl, rfl, fun _ => rfl, rfl, rfl, rfl⟩

theorem records_kept_one :
    ∃ s, Kept 0 s ∧ s.made MMAPBASE = some ⟨onePage.flags, 0, 1⟩ := by
  obtain ⟨k₁, h₁, -⟩ := start_lone.mmap (by decide) quiet
  have hmeets : Meets 0 start (.mmap onePage quiet) :=
    ⟨by decide, by decide, fun _ _ hu => by cases hu⟩
  have hstep : step 0 start (.mmap onePage quiet) ⟨k₁, Function.update start.made MMAPBASE
      (some ⟨onePage.flags, onePage.fd, onePage.pages⟩)⟩ := by
    show (sys_mmap 0 onePage quiet start.kernel >>= _) = _
    rw [h₁]
    rfl
  refine ⟨_, (records_kept (.next (.start start_init) hmeets hstep)).1, ?_⟩
  dsimp only
  rw [Function.update_self, onePage_pages]
  rfl

/-- **The index only grows**: after 100 mappings, each unmapped before the next, the record of the 101st
is written behind the array. -/
theorem index_runs_out : ¬ ∀ c s, Reach (init c) (stepFew c) (fun _ _ => True) s →
    Kept c s ∧ ∀ a ext, AtMost 98 s → next c s (.mmap a ext) ≠ .error .mapIndex := by
  intro hclaim
  obtain ⟨s, hreach, hl, hmade⟩ := reach_lone start start_init start_lone NMAP (le_refl _)
  refine (hclaim 0 s hreach).2 onePage quiet ⟨∅, by decide, ?_⟩ ?_
  · intro va hva
    rw [hmade] at hva
    cases hva
  · show (sys_mmap 0 onePage quiet s.kernel >>= _) = _
    rw [hl.overflow quiet]
    rfl

end OperatingSystems.Vm.Records
