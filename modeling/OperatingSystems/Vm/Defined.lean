import Mathlib
import OperatingSystems.Vm.Forks

/-!
# Panics and what C leaves undefined

A call may panic, and then the kernel comes down.  Or it may do what C leaves undefined: it takes a null
pointer for a page-table entry or a `struct file`, and the kernel goes on with whatever lies at address `0`.

* **`Panic`** — the faults of the first kind.
* **`Scans`**, **`Opens`**, **`Tabled`** — what the calls rely on.
* **`sys_mmap_panics`**, **`sys_munmap_panics`**, **`fork_panics`**, … — then no other fault is possible.
-/

namespace OperatingSystems.Vm

open Outcomes

variable {k k' k'' : Kernel} {c parent child : Slot} {d : PgDir} {va temp n addr f sz oldsz newsz : ℕ}
  {fl : List ℕ} {ext : External} {m : MapEntry} {contents : ℕ → Page}

/-- The kernel comes down with a message. -/
def Panic : Fault → Prop
  | .kfree | .remap | .copyuvm | .filetype | .initExiting | .trap => True
  | .ofileIndex | .nullFile | .nullPte | .mapIndex | .arrayLength => False

/-- The scanners look at entries of the array only. -/
def Scans (p : Proc) : Prop :=
  p.currentMappingIndex < NMAP

/-- The descriptor is one of an open file. -/
def Opens (p : Proc) (fd : ℤ) : Prop :=
  0 ≤ fd ∧ fd < NOFILE ∧ p.ofile fd.toNat ≠ none

/-- There are page tables for the `n` pages from `va` on. -/
def Tabled (d : PgDir) (va n : ℕ) : Prop :=
  ∀ i < n, walkpgdir d (va + i) ≠ none

/-! ### What the functions leave alone -/

/-- No process loses a page table, and none takes a new record. -/
def Widens (k k' : Kernel) : Prop :=
  ∀ q, (k'.proc q).currentMappingIndex = (k.proc q).currentMappingIndex ∧
    ∀ pdx, ((k.proc q).pgdir.table pdx).isSome → ((k'.proc q).pgdir.table pdx).isSome

theorem Widens.refl (k : Kernel) : Widens k k :=
  fun _ => ⟨rfl, fun _ h => h⟩

theorem Widens.trans (h : Widens k k') (h' : Widens k' k'') : Widens k k'' :=
  fun q => ⟨(h' q).1.trans (h q).1, fun pdx ht => (h' q).2 pdx ((h q).2 pdx ht)⟩

theorem Widens.of_proc (h : k'.proc = k.proc) : Widens k k' := by
  intro q
  rw [h]
  exact ⟨rfl, fun _ ht => ht⟩

theorem Widens.withDir (h : ∀ pdx, ((k.proc c).pgdir.table pdx).isSome → (d.table pdx).isSome)
    (mem : ℕ → Page) : Widens k (k.withDir c d fl mem) := by
  intro q
  by_cases hq : q = c
  · rw [hq, Kernel.withDir_self_proc]
    exact ⟨rfl, h⟩
  · rw [Kernel.withDir_proc_of_ne _ _ _ _ _ hq]
    exact ⟨rfl, fun _ ht => ht⟩

theorem Widens.withEntry {i : ℕ} : Widens k (k.withEntry c i m) := by
  intro q
  unfold Kernel.withEntry
  by_cases hq : q = c
  · rw [hq, Kernel.modify_self]
    exact ⟨rfl, fun _ ht => ht⟩
  · rw [Kernel.modify_of_ne _ hq]
    exact ⟨rfl, fun _ ht => ht⟩

/-- `mappages` for process `c`. -/
theorem Widens.mappages {pa : ℕ} {fl' : List ℕ} {b : Bool}
    (h : mappages (k.proc c).pgdir va pa fl = .ok (d, fl', b)) (mem : ℕ → Page) :
    Widens k (k.withDir c d fl' mem) := by
  obtain ⟨-, -, ⟨-, hm⟩ | ⟨-, rfl, -⟩⟩ := mappages_ok h
  · exact .withDir (fun _ ht => hm.table_isSome ht) mem
  · exact .withDir (fun _ ht => ht) mem

theorem Widens.grow {b : Bool} (h : cangrowup c va k = .ok (k', b)) : Widens k k' := by
  obtain ⟨-, rfl⟩ | ⟨i, -, -, pa, fl, -, ⟨-, -, rfl⟩ | ⟨-, -, -, -, d, fl', hm, rfl⟩⟩ := cangrowup_ok h
  · exact .refl _
  · exact .withDir (fun _ ht => ht) _
  · exact (Widens.withDir (fun _ ht => hm.table_isSome ht) _).trans .withEntry

theorem Widens.growthKeeps (S : ℕ → Prop) : GrowthKeeps c S (Widens k) :=
  fun _ _ _ _ hgrow hk => hk.trans (.grow hgrow)

theorem Scans.widens (h : Scans (k.proc c)) (hw : Widens k k') : Scans (k'.proc c) := by
  unfold Scans
  rw [(hw c).1]
  exact h

theorem Tabled.widens (h : Tabled (k.proc c).pgdir va n) (hw : Widens k k') :
    Tabled (k'.proc c).pgdir va n := by
  intro i hi hnone
  refine h i hi ?_
  rw [walkpgdir_eq_none] at hnone ⊢
  refine hnone.imp_left fun ⟨hlt, ht⟩ => ⟨hlt, ?_⟩
  rw [← Option.not_isSome_iff_eq_none] at ht ⊢
  exact fun hsome => ht ((hw c).2 _ hsome)

/-! ### Pages and page tables -/

theorem kfree_panics {v : ℕ} : Fails Panic (kfree v k) := by
  unfold kfree
  split
  · exact .ok
  · exact .error trivial

theorem kfreeAll_panics {vs : List ℕ} : Fails Panic (kfreeAll vs k) := by
  intro e h
  rw [(kfreeAll_error h).1]
  trivial

theorem allocPages_panics {got : List ℕ} : Fails Panic (allocPages n got k) := by
  intro e h
  rw [(allocPages_error h).1]
  trivial

theorem mappages_panics {pa : ℕ} : Fails Panic (mappages d va pa fl) := by
  unfold mappages
  split
  · exact .error trivial
  · split
    · split
      · exact .error trivial
      · exact .ok
    · split
      · exact .ok
      · exact .ok

theorem setEntry_panics {i : ℕ} (hi : i < NMAP) : Fails Panic (setEntry c i m k) := by
  unfold setEntry
  rw [if_pos hi]
  exact .ok

theorem clearpte_panics : Fails Panic (clearpte c va k) := by
  unfold clearpte
  split
  · exact .ok
  · dsimp only
    split
    · exact .ok
    · exact kfree_panics.bind fun _ _ => .ok

theorem cangrowup_panics (h : Scans (k.proc c)) : Fails Panic (cangrowup c va k) := by
  unfold cangrowup
  dsimp only
  split
  · exact .ok
  · rename_i i hi
    have hle := List.mem_range.mp (List.mem_of_find?_eq_some hi)
    unfold Scans at h
    refine mappages_panics.bind fun r _ => ?_
    split
    · exact (setEntry_panics (by omega)).bind fun _ _ => .ok
    · exact .ok

/-! ### User memory and files -/

theorem touch_panics (h : Scans (k.proc c)) : Fails Panic (touch c va k) := by
  unfold touch
  split
  · exact .ok
  · refine (cangrowup_panics h).bind fun r _ => ?_
    dsimp only
    split
    · exact .ok
    · exact .error trivial

theorem loadByte_panics (h : Scans (k.proc c)) : Fails Panic (loadByte c addr k) :=
  (touch_panics h).bind fun _ _ => .ok

theorem loadBytes_panics (h : Scans (k.proc c)) : Fails Panic (loadBytes c addr n k) := by
  induction n generalizing addr k with
  | zero => exact .ok
  | succ n ih =>
    refine (loadByte_panics h).bind fun r hr => ?_
    have hw : Widens k r.1 := by
      obtain ⟨⟨k₁, pa⟩, htouch, hrest⟩ := bind_eq_ok hr
      cases hrest
      exact touch_keeps (Widens.growthKeeps fun _ => True) trivial htouch (.refl k)
    exact (ih (h.widens hw)).bind fun _ _ => .ok

theorem storeByte_panics {b : UInt8} (h : Scans (k.proc c)) : Fails Panic (storeByte c addr b k) :=
  (touch_panics h).bind fun _ _ => .ok

theorem storeBytes_panics {bs : List UInt8} (h : Scans (k.proc c)) :
    Fails Panic (storeBytes c addr bs k) := by
  induction bs generalizing addr k with
  | nil => exact .ok
  | cons b bs ih =>
    refine (storeByte_panics h).bind fun k₁ hstore => ih (h.widens ?_)
    exact storeByte_keeps (Widens.growthKeeps fun _ => True) (fun _ _ hk => hk) trivial hstore (.refl k)

theorem writei_panics {inum off : ℕ} (h : Scans (k.proc c)) :
    Fails Panic (writei c inum addr off n ext k) := by
  unfold writei
  dsimp only
  split
  · exact .ok
  · split
    · exact .ok
    · exact (loadBytes_panics h).bind fun _ _ => .ok

theorem writei_widens {inum off : ℕ} {b : Bool} (h : writei c inum addr off n ext k = .ok (k', b)) :
    Widens k k' := by
  unfold writei at h
  dsimp only at h
  split at h
  · cases h
    exact .refl _
  · split at h
    · cases h
      exact .refl _
    · obtain ⟨⟨k₁, bs⟩, h₁, h₂⟩ := bind_eq_ok h
      cases h₂
      have hw : Widens k k₁ :=
        loadBytes_keeps (Widens.growthKeeps fun _ => True) (fun _ _ => trivial) h₁ (.refl k)
      exact hw

theorem writeChunks_panics {rounds : ℕ} (h : Scans (k.proc c)) :
    Fails Panic (writeChunks c f addr ext rounds n k) := by
  induction rounds generalizing addr n k with
  | zero => exact .ok
  | succ rounds ih =>
    unfold writeChunks
    split
    · exact .ok
    · refine (writei_panics h).bind fun r hr => ?_
      have hw : Scans (r.1.proc c) := h.widens (writei_widens hr)
      dsimp only
      split
      · exact ih hw
      · exact .ok

theorem filewrite_panics (h : Scans (k.proc c)) : Fails Panic (filewrite c f addr n ext k) := by
  unfold filewrite
  dsimp only
  split
  · exact .ok
  · split
    · exact .ok
    · exact writeChunks_panics h
    · exact .error trivial

theorem ofileAt_opens {p : Proc} {fd : ℤ} (h : Opens p fd) : ∃ f, ofileAt p fd = .ok f := by
  obtain ⟨hlo, hhi, hopen⟩ := h
  obtain ⟨f, hf⟩ := Option.ne_none_iff_exists'.mp hopen
  refine ⟨f, ?_⟩
  unfold ofileAt
  rw [if_pos ⟨hlo, hhi⟩, hf]

/-! ### `mmap` and `munmap` -/

theorem sys_mmap_panics {a : MmapArgs} (hscans : Scans (k.proc c)) (hlength : 0 ≤ pagesOf a.length)
    (hfile : has a.flags MAP_ANONYMOUS = false → Opens (k.proc c) a.fd) :
    Fails Panic (sys_mmap c a ext k) := by
  intro e h
  obtain ⟨-, hneg⟩ | ⟨rfl, -⟩ | ⟨hanon, hfault⟩ | ⟨-, hindex⟩ := sys_mmap_error h
  · omega
  · trivial
  · obtain ⟨f, hf⟩ := ofileAt_opens (hfile hanon)
    rcases hfault with herror | ⟨rfl, -⟩
    · rw [hf] at herror
      cases herror
    · trivial
  · unfold Scans at hscans
    omega

theorem writeMapping_panics (hscans : Scans (k.proc c))
    (hfile : has m.flags MAP_ANONYMOUS = false → has m.flags MAP_PRIVATE = false → Opens (k.proc c) m.fd) :
    Fails Panic (writeMapping c m va ext k) := by
  unfold writeMapping
  split
  · exact .ok
  · rename_i hflags
    rw [Bool.not_eq_true, Bool.or_eq_false_iff] at hflags
    obtain ⟨f, hf⟩ := ofileAt_opens (hfile hflags.1 hflags.2)
    rw [hf, ok_bind]
    exact filewrite_panics hscans

theorem sys_munmap_panics {virtualAddress length : ℤ} (hscans : Scans (k.proc c))
    (hfile : ∀ i, findmappingmetadata (k.proc c) (pageOf virtualAddress) = some i →
      has ((k.proc c).mapEntries i).flags MAP_ANONYMOUS = false →
      has ((k.proc c).mapEntries i).flags MAP_PRIVATE = false →
      Opens (k.proc c) ((k.proc c).mapEntries i).fd) :
    Fails Panic (sys_munmap c virtualAddress length ext k) := by
  intro e h
  obtain ⟨i, hfound, herror | ⟨k₁, -, herror⟩⟩ := sys_munmap_error h
  · exact writeMapping_panics hscans (hfile i hfound.found) e herror
  · rw [(clearPages_error herror).1]
    trivial

/-! ### The image of a process -/

theorem setupkvm_panics : Fails Panic (setupkvm k) := by
  refine allocPages_panics.bind fun r _ => ?_
  dsimp only
  split
  · exact .ok
  · exact .ok

theorem buildImage_panics : Fails Panic (buildImage d contents va n k) := by
  induction n generalizing va d k with
  | zero => exact .ok
  | succ n ih =>
    unfold buildImage
    split
    · exact kfreeAll_panics.bind fun _ _ => .ok
    · refine mappages_panics.bind fun r _ => ?_
      dsimp only
      split
      · exact ih
      · exact kfree_panics.bind fun _ _ => kfreeAll_panics.bind fun _ _ => .ok

theorem copyuvm_panics : Fails Panic (copyuvm d sz k) := by
  refine setupkvm_panics.bind fun r _ => ?_
  dsimp only
  split
  · exact .ok
  · split
    · exact buildImage_panics
    · exact .error trivial

theorem deallocPages_panics {vas : List ℕ} : Fails Panic (deallocPages d vas k) := by
  induction vas generalizing d k with
  | nil => exact .ok
  | cons va vas ih =>
    unfold deallocPages
    split
    · exact ih
    · exact kfree_panics.bind fun _ _ => ih

theorem deallocuvm_panics : Fails Panic (deallocuvm d oldsz newsz k) := by
  unfold deallocuvm
  split
  · exact .ok
  · exact deallocPages_panics.bind fun _ _ => .ok

theorem allocImage_panics : Fails Panic (allocImage d contents oldsz newsz va n k) := by
  induction n generalizing va d k with
  | zero => exact .ok
  | succ n ih =>
    unfold allocImage
    split
    · exact deallocuvm_panics.bind fun _ _ => .ok
    · refine mappages_panics.bind fun r _ => ?_
      dsimp only
      split
      · exact ih
      · exact deallocuvm_panics.bind fun _ _ => kfree_panics.bind fun _ _ => .ok

theorem allocuvm_panics : Fails Panic (allocuvm d contents oldsz newsz k) := by
  unfold allocuvm
  split
  · exact .ok
  · split
    · exact .ok
    · exact allocImage_panics.bind fun _ _ => .ok

theorem growproc_panics {n : ℤ} : Fails Panic (growproc c n k) := by
  have hend : ∀ r : Kernel × PgDir × ℕ, Fails Panic
      (if r.2.2 = 0 then (.ok (r.1.modify c fun p => { p with pgdir := r.2.1 }, false) :
          Except Fault (Kernel × Bool))
        else .ok ((r.1.modify c fun p => { p with pgdir := r.2.1 }).modify c fun p =>
          { p with sz := r.2.2 }, true)) := by
    intro r
    split
    · exact .ok
    · exact .ok
  unfold growproc
  dsimp only
  split
  · exact .ok
  · split
    · exact allocuvm_panics.bind fun r _ => hend r
    · exact deallocuvm_panics.bind fun r _ => hend r

theorem loadSegments_panics {segments : List (Option ℕ)} : Fails Panic (loadSegments contents d sz segments k) := by
  induction segments generalizing d sz k with
  | nil => exact .ok
  | cons e segments ih =>
    cases e with
    | none => exact .ok
    | some newsz =>
      refine allocuvm_panics.bind fun r _ => ?_
      dsimp only
      split
      · exact .ok
      · exact ih

theorem exec_panics {program : Program} : Fails Panic (exec c program k) := by
  refine setupkvm_panics.bind fun r _ => ?_
  dsimp only
  split
  · exact .ok
  · refine loadSegments_panics.bind fun r _ => ?_
    split
    · exact kfreeAll_panics.bind fun _ _ => .ok
    · refine allocuvm_panics.bind fun r _ => ?_
      split
      · exact kfreeAll_panics.bind fun _ _ => .ok
      · exact kfreeAll_panics.bind fun _ _ => .ok

/-! ### `fork` -/

theorem buildImage_proc {r : Option PgDir} (h : buildImage d contents va n k = .ok (k', r)) :
    k'.proc = k.proc := by
  induction n generalizing va d k with
  | zero =>
    cases h
    rfl
  | succ n ih =>
    unfold buildImage at h
    split at h
    · obtain ⟨k₁, h₁, h₂⟩ := bind_eq_ok h
      obtain ⟨-, mem, hk⟩ := kfreeAll_ok h₁
      cases h₂
      rw [hk]
    · obtain ⟨⟨d₁, fl, mapped⟩, -, h₁⟩ := bind_eq_ok h
      dsimp only at h₁
      split at h₁
      · have hrest := ih h₁
        exact hrest
      · obtain ⟨k₁, h₂, h₃⟩ := bind_eq_ok h₁
        obtain ⟨-, mem, rfl⟩ := kfree_ok h₂
        obtain ⟨k₂, h₄, h₅⟩ := bind_eq_ok h₃
        obtain ⟨-, mem', hk⟩ := kfreeAll_ok h₄
        cases h₅
        rw [hk]

theorem copyuvm_proc {r : Option PgDir} (h : copyuvm d sz k = .ok (k', r)) : k'.proc = k.proc := by
  obtain ⟨⟨k₁, r₁⟩, h₁, h₂⟩ := bind_eq_ok h
  obtain ⟨fl, mem, rfl, -⟩ := setupkvm_ok h₁
  dsimp only at h₂
  split at h₂
  · cases h₂
    rfl
  · split at h₂
    · have hproc := buildImage_proc h₂
      exact hproc
    · cases h₂

theorem copyPage_panics (h : Scans (k.proc parent)) : Fails Panic (copyPage parent va temp k) := by
  refine (loadBytes_panics h).bind fun r hr => storeBytes_panics (h.widens ?_)
  exact loadBytes_keeps (Widens.growthKeeps fun _ => True) (fun _ _ => trivial) hr (.refl k)

theorem copyPage_widens (h : copyPage parent va temp k = .ok k') : Widens k k' := by
  obtain ⟨r, hload, hstore⟩ := bind_eq_ok h
  refine storeBytes_keeps (Widens.growthKeeps fun _ => True) (fun _ _ hk => hk) (fun _ _ => trivial) hstore ?_
  exact loadBytes_keeps (Widens.growthKeeps fun _ => True) (fun _ _ => trivial) hload (.refl k)

theorem copyPrivate_panics {ps : List ℕ} (h : Scans (k.proc parent)) :
    Fails Panic (copyPrivate parent child va temp ps k) := by
  induction ps generalizing va temp k with
  | nil => exact .ok
  | cons p ps ih =>
    refine mappages_panics.bind fun ⟨d, fl, mapped⟩ hmap => ?_
    have hw : Widens k (k.withDir child d fl k.mem) := .mappages hmap k.mem
    have h₁ := h.widens hw
    dsimp only
    rw [Kernel.withDir_eq]
    split
    · exact .ok
    · refine mappages_panics.bind fun ⟨d', fl', mapped'⟩ hmap' => ?_
      have h₂ := h₁.widens (Widens.mappages hmap' (k.withDir child d fl k.mem).mem)
      dsimp only
      rw [Kernel.withDir_eq]
      split
      · exact .ok
      · refine (copyPage_panics h₂).bind fun k₁ hcopy => ih ?_
        exact (h₂.widens (copyPage_widens hcopy)).widens
          (Widens.withDir (d := (k₁.proc parent).pgdir.clear temp) (fun _ ht => ht) k₁.mem)

theorem copyPrivate_widens {ps : List ℕ} {b : Bool}
    (h : copyPrivate parent child va temp ps k = .ok (k', b)) : Widens k k' := by
  induction ps generalizing va temp k with
  | nil =>
    cases h
    exact .refl _
  | cons p ps ih =>
    obtain ⟨⟨d, fl, mapped⟩, h₁, h₂⟩ := bind_eq_ok h
    have hw₁ : Widens k (k.withDir child d fl k.mem) := .mappages h₁ k.mem
    dsimp only at h₂
    rw [Kernel.withDir_eq] at h₂
    split at h₂
    · cases h₂
      exact hw₁
    · obtain ⟨⟨d', fl', mapped'⟩, h₃, h₄⟩ := bind_eq_ok h₂
      have hw₂ := hw₁.trans (.mappages h₃ (k.withDir child d fl k.mem).mem)
      dsimp only at h₄
      rw [Kernel.withDir_eq] at h₄
      split at h₄
      · cases h₄
        exact hw₂
      · obtain ⟨k₁, h₅, h₆⟩ := bind_eq_ok h₄
        refine (hw₂.trans (copyPage_widens h₅)).trans (Widens.trans ?_ (ih h₆))
        exact Widens.withDir (d := (k₁.proc parent).pgdir.clear temp) (fun _ ht => ht) k₁.mem

theorem Tabled.tail (h : Tabled d va (n + 1)) : Tabled d (va + 1) n := by
  intro i hi
  have hnext := h (i + 1) (Nat.succ_lt_succ hi)
  rwa [show va + (i + 1) = va + 1 + i by omega] at hnext

theorem copyShared_panics (h : Tabled (k.proc parent).pgdir va n) :
    Fails Panic (copyShared parent child va n k) := by
  induction n generalizing va k with
  | zero => exact .ok
  | succ n ih =>
    unfold copyShared
    split
    · rename_i hnone
      exact absurd hnone (h 0 (Nat.succ_pos n))
    · refine mappages_panics.bind fun ⟨d, fl, mapped⟩ hmap => ?_
      dsimp only
      rw [Kernel.withDir_eq]
      split
      · exact ih (h.tail.widens (.mappages hmap k.mem))
      · exact .ok

theorem copyShared_widens {b : Bool} (h : copyShared parent child va n k = .ok (k', b)) : Widens k k' := by
  induction n generalizing va k with
  | zero =>
    cases h
    exact .refl _
  | succ n ih =>
    unfold copyShared at h
    split at h
    · cases h
    · obtain ⟨⟨d, fl, mapped⟩, h₁, h₂⟩ := bind_eq_ok h
      have hw : Widens k (k.withDir child d fl k.mem) := .mappages h₁ k.mem
      dsimp only at h₂
      rw [Kernel.withDir_eq] at h₂
      split at h₂
      · exact hw.trans (ih h₂)
      · cases h₂
        exact hw

/-- What the copy of a record relies on: a mapping that is shared has its page tables. -/
def Copies (d : PgDir) (m : MapEntry) : Prop :=
  m.inUse = true → has m.flags MAP_PRIVATE = false → has m.flags MAP_SHARED = true →
    Tabled d m.startingVirtualAddress m.numPages

theorem copyMapping_panics (hscans : Scans (k.proc parent)) (huse : m.inUse = true)
    (hcopies : Copies (k.proc parent).pgdir m) : Fails Panic (copyMapping parent child m k) := by
  unfold copyMapping
  split
  · refine allocPages_panics.bind fun ⟨k₁, r⟩ halloc => ?_
    have hproc : k₁.proc = k.proc := by
      obtain ⟨-, -, rfl⟩ | ⟨-, -, mem, rfl⟩ := allocPages_ok halloc
      · rfl
      · rfl
    dsimp only
    split
    · exact .ok
    · split
      · exact .ok
      · exact copyPrivate_panics (hscans.widens (.of_proc hproc))
  · rename_i hprivate
    split
    · rename_i hshared
      exact copyShared_panics (hcopies huse (Bool.not_eq_true _ ▸ hprivate) hshared)
    · exact .ok

theorem copyMapping_widens {b : Bool} (h : copyMapping parent child m k = .ok (k', b)) : Widens k k' := by
  unfold copyMapping at h
  split at h
  · obtain ⟨⟨k₁, r⟩, h₁, h₂⟩ := bind_eq_ok h
    have hproc : k₁.proc = k.proc := by
      obtain ⟨-, -, rfl⟩ | ⟨-, -, mem, rfl⟩ := allocPages_ok h₁
      · rfl
      · rfl
    dsimp only at h₂
    split at h₂
    · cases h₂
      exact .of_proc hproc
    · split at h₂
      · cases h₂
        exact .of_proc hproc
      · exact (Widens.of_proc hproc).trans (copyPrivate_widens h₂)
  · split at h
    · exact copyShared_widens h
    · cases h
      exact .refl _

/-- The loop over the records, while the child has room for them. -/
theorem copyEntries_panics {ms : List MapEntry} (hne : child ≠ parent) (hscans : Scans (k.proc parent))
    (hroom : (k.proc child).currentMappingIndex + ms.length ≤ NMAP)
    (hcopies : ∀ m ∈ ms, Copies (k.proc parent).pgdir m) :
    Fails Panic (copyEntries parent child ms k) := by
  induction ms generalizing k with
  | nil => exact .ok
  | cons m ms ih =>
    have hrest : ∀ m ∈ ms, Copies (k.proc parent).pgdir m :=
      fun m' hm => hcopies m' (List.mem_cons_of_mem _ hm)
    rw [List.length_cons] at hroom
    unfold copyEntries
    split
    · rename_i huse
      refine (setEntry_panics (by omega)).bind fun k₁ hset => ?_
      obtain ⟨-, rfl⟩ := setEntry_ok hset
      extract_lets k₂
      have hparent : k₂.proc parent = k.proc parent := by
        show (Kernel.modify _ child _).proc parent = _
        rw [Kernel.modify_of_ne _ hne.symm, Kernel.modify_of_ne _ hne.symm]
      have hindex : (k₂.proc child).currentMappingIndex = (k.proc child).currentMappingIndex + 1 := by
        show ((Kernel.modify _ child _).proc child).currentMappingIndex = _
        rw [Kernel.modify_self, Kernel.modify_self]
      have hscans₂ : Scans (k₂.proc parent) := hparent ▸ hscans
      clear_value k₂
      have hcopies₂ : ∀ m' ∈ m :: ms, Copies (k₂.proc parent).pgdir m' := by
        rw [hparent]
        exact hcopies
      refine (copyMapping_panics hscans₂ huse (hcopies₂ m List.mem_cons_self)).bind fun r hr => ?_
      have hw : Widens k₂ r.1 := copyMapping_widens hr
      dsimp only
      split
      · refine ih (hscans₂.widens hw) ?_ fun m' hm huse' hprivate hshared => ?_
        · rw [(hw child).1, hindex]
          omega
        · exact (hcopies₂ m' (List.mem_cons_of_mem _ hm) huse' hprivate hshared).widens hw
      · exact .ok
    · exact ih hscans (by omega) hrest

theorem fork_panics (hlive : (k.proc c).Live) (hscans : Scans (k.proc c))
    (hcopies : ∀ m ∈ scanned (k.proc c), Copies (k.proc c).pgdir m) : Fails Panic (fork c k) := by
  unfold fork
  split
  · exact .ok
  · rename_i np hnp
    have hne : np ≠ c := by
      rintro rfl
      exact hlive.1 (of_decide_eq_true (firstSlot_some hnp))
    extract_lets pid src k₀
    have hc₀ : k₀.proc c = k.proc c := Kernel.modify_of_ne k hne.symm fun p => { p with pid := pid }
    clear_value k₀ src pid
    split
    · exact .ok
    · refine copyuvm_panics.bind fun r hr => ?_
      obtain ⟨k₁, r₁⟩ := r
      have hproc := copyuvm_proc hr
      dsimp only
      split
      · exact kfree_panics.bind fun _ _ => .ok
      · refine Fails.bind (x := copymemorymappings c np _) ?_ fun _ _ => .ok
        unfold copymemorymappings
        generalize hk₂ : Kernel.modify _ np _ = k₂
        have hc₂ : k₂.proc c = k.proc c := by
          rw [← hk₂, Kernel.modify_of_ne _ hne.symm, ← hc₀]
          exact congrFun hproc c
        have hindex : (k₂.proc np).currentMappingIndex = 0 := by
          rw [← hk₂, Kernel.modify_self]
        refine copyEntries_panics hne (hc₂ ▸ hscans) ?_ (hc₂ ▸ hcopies)
        unfold scanned
        unfold Scans at hscans
        rw [hindex, hc₂, List.length_map, List.length_range]
        omega

/-! ### `exit`, `wait` and the page fault -/

theorem clearMappings_panics {vas : List ℕ} : Fails Panic (clearMappings c vas k) := by
  induction vas generalizing k with
  | nil => exact .ok
  | cons va vas ih =>
    unfold clearMappings
    split
    · exact clearpte_panics.bind fun _ _ => ih
    · exact ih

theorem exit_panics : Fails Panic (exit c k) := by
  unfold exit
  split
  · exact .error trivial
  · exact clearMappings_panics.bind fun _ _ => .ok

theorem wait_panics : Fails Panic (wait c k) := by
  unfold wait
  split
  · exact .ok
  · exact kfree_panics.bind fun _ _ => kfreeAll_panics.bind fun _ _ => .ok

theorem pagefault_panics (h : Scans (k.proc c)) : Fails Panic (pagefault c va k) := by
  refine (cangrowup_panics h).bind fun r _ => ?_
  dsimp only
  split
  · exact .ok
  · exact exit_panics

end OperatingSystems.Vm
