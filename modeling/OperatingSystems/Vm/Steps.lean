import Mathlib
import OperatingSystems.Vm.Access

/-!
# What `mmap` and `munmap` do

Each exit of the two system calls with the kernel that it leaves behind.

* **`MmapExit`**, **`sys_mmap_exit`** — the six failures of `mmap`, and its success.
* **`sys_mmap_some`** — the process after a successful `mmap`.
* **`MunmapExit`**, **`sys_munmap_exit`** — the four failures of `munmap`, and its success.
-/

namespace OperatingSystems.Vm

open Outcomes

variable {k k' : Kernel} {c : Slot} {va : ℕ} {a : MmapArgs} {ext : External}

/-! ### Reading a file into a mapping -/

theorem fileread_ok {f n : ℕ} {r : Option (List UInt8)} (h : fileread f n ext k = .ok (k', r)) :
    (∃ off, k' = k.setFile f { k.file f with off := off }) ∧ ∀ bs, r = some bs → bs.length ≤ n := by
  have hself : k = k.setFile f { k.file f with off := (k.file f).off } := by
    unfold Kernel.setFile
    rw [Function.update_eq_self]
  have hext : ∀ bs, ext.input.map (List.take n) = some bs → bs.length ≤ n := by
    intro bs hbs
    obtain ⟨xs, -, rfl⟩ := Option.map_eq_some_iff.mp hbs
    exact List.length_take_le ..
  unfold fileread at h
  dsimp only at h
  split at h
  · cases h
    exact ⟨⟨_, hself⟩, by intro bs hbs; cases hbs⟩
  · split at h
    · cases h
      exact ⟨⟨_, hself⟩, hext⟩
    · cases h
      refine ⟨⟨_, rfl⟩, ?_⟩
      intro bs hbs
      split at hbs
      · exact hext bs hbs
      · unfold readi at hbs
        split at hbs
        · cases hbs
        · cases hbs
          rw [List.length_map, List.length_range]
          exact min_le_left ..
    · cases h

/-- The pages of a new mapping are present. -/
theorem Mapped.backed {d : PgDir} {ps fl fl' : List ℕ} {addr n : ℕ}
    (h : Mapped d (k.proc c).pgdir va ps fl fl') (hlo : va * PGSIZE ≤ addr)
    (hhi : addr + n ≤ (va + ps.length) * PGSIZE) : k.Backed c addr n := by
  intro i hi
  have hpos : 0 < PGSIZE := by decide
  have h1 : va ≤ (addr + i) / PGSIZE := (Nat.le_div_iff_mul_le hpos).mpr (by omega)
  have h2 : (addr + i) / PGSIZE < va + ps.length := (Nat.div_lt_iff_lt_mul hpos).mpr (by omega)
  rw [h.pte, if_pos ⟨h1, h2⟩, List.getElem?_eq_getElem (by omega)]
  rfl

/-- Open files that differ in their offsets at most. -/
def SameFiles (file file' : ℕ → File) : Prop :=
  ∀ g, { file' g with off := 0 } = { file g with off := 0 }

theorem SameFiles.refl (file : ℕ → File) : SameFiles file file :=
  fun _ => rfl

theorem SameFiles.trans {file file' file'' : ℕ → File} (h : SameFiles file file')
    (h' : SameFiles file' file'') : SameFiles file file'' :=
  fun g => (h' g).trans (h g)

theorem SameFiles.ip {file file' : ℕ → File} (h : SameFiles file file') (g : ℕ) :
    (file' g).ip = (file g).ip := by
  have := congrArg File.ip (h g)
  exact this

theorem SameFiles.ref {file file' : ℕ → File} (h : SameFiles file file') (g : ℕ) :
    (file' g).ref = (file g).ref := by
  have := congrArg File.ref (h g)
  exact this

theorem SameFiles.setFile (k : Kernel) (f off : ℕ) :
    SameFiles k.file (k.setFile f { k.file f with off := off }).file := by
  intro g
  unfold Kernel.setFile
  dsimp only
  by_cases hg : g = f
  · rw [hg, Function.update_self]
  · rw [Function.update_of_ne hg]

/-- Reading into a mapping whose pages are present changes the offset of the file and the contents of
the pages, and nothing else. -/
theorem readMapping_ok {d : PgDir} {ps fl fl' : List ℕ} {b : Bool}
    (hm : Mapped d (k.proc c).pgdir va ps fl fl')
    (h : readMapping c a va ps.length ext k = .ok (k', b)) :
    ∃ mem file, k' = { k with mem := mem, file := file } ∧ SameFiles k.file file := by
  unfold readMapping at h
  split at h
  · cases h
    exact ⟨_, _, rfl, .refl _⟩
  · obtain ⟨f, h₁, h₂⟩ := bind_eq_ok h
    obtain ⟨⟨k₁, buffer⟩, h₃, h₄⟩ := bind_eq_ok h₂
    obtain ⟨⟨off, rfl⟩, hlen⟩ := fileread_ok h₃
    have hsame : SameFiles k.file ((k.setFile f { k.file f with off := 0 }).setFile f
        { (k.setFile f { k.file f with off := 0 }).file f with off := off }).file :=
      (SameFiles.setFile k f 0).trans (.setFile _ f off)
    dsimp only at h₄
    cases buffer with
    | none =>
      cases h₄
      exact ⟨_, _, rfl, hsame⟩
    | some bytes =>
      obtain ⟨k₂, h₅, h₆⟩ := bind_eq_ok h₄
      cases h₆
      have hle := hlen bytes rfl
      have hb : k.Backed c (va * PGSIZE) bytes.length :=
        hm.backed (le_refl _) (by rw [Nat.add_mul]; omega)
      obtain ⟨mem, hrun, -, -⟩ := storeBytes_present (k := (k.setFile f { k.file f with off := 0 }).setFile
        f { (k.setFile f { k.file f with off := 0 }).file f with off := off }) hb
      rw [hrun] at h₅
      cases h₅
      exact ⟨_, _, rfl, hsame⟩

/-! ### `sys_mmap` -/

/-- The number of pages of a mapping. -/
def MmapArgs.pages (a : MmapArgs) : ℕ :=
  (pagesOf a.length).toNat

/-- The arguments are valid, there is memory, and the mapping and its guard page are free. -/
structure Placed (k : Kernel) (c : Slot) (a : MmapArgs) (va : ℕ) : Prop where
  valid : a.valid = true
  nonneg : 0 ≤ pagesOf a.length
  room : a.pages ≤ k.freelist.length
  place : placeMapping (k.proc c) a a.pages = some va
  guard : guardOk (k.proc c) a va a.pages = true

/-- The pages that `mmap` takes. -/
def MmapArgs.got (a : MmapArgs) (k : Kernel) : List ℕ :=
  k.freelist.take a.pages

theorem Placed.length_got (h : Placed k c a va) : (a.got k).length = a.pages := by
  rw [MmapArgs.got, List.length_take, min_eq_left h.room]

/-- The exits of `sys_mmap`. -/
inductive MmapExit (c : Slot) (a : MmapArgs) (ext : External) (k : Kernel) :
    Kernel → Option ℕ → Prop
  | invalid (hinvalid : a.valid = false) : MmapExit c a ext k k none
  | memory (mem : ℕ → Page) (hvalid : a.valid = true) (hroom : k.freelist.length < a.pages) :
      MmapExit c a ext k { k with freelist := k.freelist.reverse, mem := mem } none
  | place (hvalid : a.valid = true) (hroom : a.pages ≤ k.freelist.length)
      (hplace : placeMapping (k.proc c) a a.pages = none) :
      MmapExit c a ext k { k with freelist := k.freelist.drop a.pages } none
  | guard (va : ℕ) (hvalid : a.valid = true) (hroom : a.pages ≤ k.freelist.length)
      (hplace : placeMapping (k.proc c) a a.pages = some va)
      (hguard : guardOk (k.proc c) a va a.pages = false) :
      MmapExit c a ext k { k with freelist := k.freelist.drop a.pages } none
  | tables (va m : ℕ) (d : PgDir) (hplaced : Placed k c a va) (hlt : m < a.pages)
      (hmapped : Mapped (k.proc c).pgdir d va ((a.got k).take m) (k.freelist.drop a.pages) [])
      (htable : d.table ((va + m) / 1024) = none) :
      MmapExit c a ext k (k.withDir c d [] k.mem) none
  | read (va : ℕ) (d : PgDir) (fl : List ℕ) (mem : ℕ → Page) (file : ℕ → File)
      (hplaced : Placed k c a va)
      (hmapped : Mapped (k.proc c).pgdir d va (a.got k) (k.freelist.drop a.pages) fl)
      (hread : readMapping c a va a.pages ext (k.withDir c d fl k.mem) =
        .ok ({ k.withDir c d fl mem with file := file }, false)) :
      MmapExit c a ext k { k.withDir c d fl mem with file := file } none
  | done (va : ℕ) (d : PgDir) (fl : List ℕ) (mem : ℕ → Page) (file : ℕ → File)
      (hplaced : Placed k c a va)
      (hmapped : Mapped (k.proc c).pgdir d va (a.got k) (k.freelist.drop a.pages) fl)
      (hread : readMapping c a va a.pages ext (k.withDir c d fl k.mem) =
        .ok ({ k.withDir c d fl mem with file := file }, true))
      (hindex : (k.proc c).currentMappingIndex < NMAP) :
      MmapExit c a ext k
        (Kernel.modify { k with freelist := fl, mem := mem, file := file } c fun p => { p with
          pgdir := d
          mapEntries := Function.update p.mapEntries p.currentMappingIndex (a.entry va a.pages)
          currentMappingIndex := p.currentMappingIndex + 1 }) (some va)

/-- **Every outcome of `sys_mmap` is one of the exits.** -/
theorem sys_mmap_exit {r : Option ℕ} (h : sys_mmap c a ext k = .ok (k', r)) :
    MmapExit c a ext k k' r := by
  unfold sys_mmap at h
  split at h
  · rename_i hv
    cases h
    rw [Bool.not_eq_true'] at hv
    exact .invalid hv
  · rename_i hv
    rw [Bool.not_eq_true', Bool.not_eq_false] at hv
    split at h
    · cases h
    · rename_i hn
      dsimp only at h
      obtain ⟨⟨k₁, pages⟩, h₁, h₂⟩ := bind_eq_ok h
      obtain ⟨hroom, rfl, rfl⟩ | ⟨hroom, rfl, mem, rfl⟩ := allocPages_ok h₁
      · dsimp only at h₂
        split at h₂
        · rename_i hplace
          cases h₂
          exact .place hv hroom hplace
        · rename_i va hplace
          split at h₂
          · rename_i hguard
            cases h₂
            rw [Bool.not_eq_true'] at hguard
            exact .guard va hv hroom hplace hguard
          · rename_i hguard
            rw [Bool.not_eq_true', Bool.not_eq_false] at hguard
            have hplaced : Placed k c a va := ⟨hv, by omega, hroom, hplace, hguard⟩
            obtain ⟨⟨d, fl, mapped⟩, h₃, h₄⟩ := bind_eq_ok h₂
            dsimp only at h₄
            obtain ⟨m, hm, hmapped, ⟨rfl, rfl⟩ | ⟨rfl, hlt, rfl, htable⟩⟩ := mapPages_ok h₃
            · rw [List.nil_append, List.take_length] at hmapped
              rw [if_neg (by decide)] at h₄
              obtain ⟨⟨k₂, readOk⟩, h₅, h₆⟩ := bind_eq_ok h₄
              have hlen := hplaced.length_got
              have hm' : Mapped (k.proc c).pgdir ((k.withDir c d fl k.mem).proc c).pgdir va
                  (a.got k) (k.freelist.drop a.pages) fl := by
                rw [Kernel.withDir_self_proc]
                exact hmapped
              have h₅' : readMapping c a va (a.got k).length ext (k.withDir c d fl k.mem) =
                  .ok (k₂, readOk) := by
                rw [hlen]
                exact h₅
              obtain ⟨mem, file, rfl, -⟩ := readMapping_ok hm' h₅'
              dsimp only at h₆
              cases readOk with
              | false =>
                cases h₆
                exact .read va d fl mem file hplaced hmapped h₅
              | true =>
                rw [if_neg (by decide)] at h₆
                obtain ⟨k₃, h₇, h₈⟩ := bind_eq_ok h₆
                cases h₈
                obtain ⟨hindex, rfl⟩ := setEntry_ok h₇
                have hp : (Kernel.proc { k.withDir c d fl k.mem with mem := mem, file := file } c) =
                    { k.proc c with pgdir := d } := Kernel.withDir_self_proc k c d fl k.mem
                rw [hp] at hindex
                have hk := MmapExit.done va d fl mem file hplaced hmapped h₅ hindex
                simp only [Kernel.modify, Kernel.withDir, Function.update_self,
                  Function.update_idem] at hk ⊢
                exact hk
            · cases h₄
              rw [List.nil_append] at hmapped hlt
              refine .tables va m d hplaced ?_ hmapped htable
              rwa [show (k.freelist.take (pagesOf a.length).toNat).length = a.pages from
                hplaced.length_got] at hlt
      · cases h₂
        rw [List.nil_append]
        exact .memory mem hv hroom

theorem Placed.sameFiles {d : PgDir} {fl fl' : List ℕ} {mem : ℕ → Page} {file : ℕ → File} {b : Bool}
    (h : Placed k c a va) (hmapped : Mapped (k.proc c).pgdir d va (a.got k) fl fl')
    (hread : readMapping c a va a.pages ext (k.withDir c d fl' k.mem) =
      .ok ({ k.withDir c d fl' mem with file := file }, b)) : SameFiles k.file file := by
  have hm : Mapped (k.proc c).pgdir ((k.withDir c d fl' k.mem).proc c).pgdir va (a.got k) fl fl' := by
    rw [Kernel.withDir_self_proc]
    exact hmapped
  rw [← h.length_got] at hread
  obtain ⟨mem', file', he, hsame⟩ := readMapping_ok hm hread
  rw [show file = file' from congrArg Kernel.file he]
  exact hsame

/-- A failed `mmap` changes at most the page directory, the free list, and contents. -/
theorem sys_mmap_none (h : sys_mmap c a ext k = .ok (k', none)) :
    ∃ d fl mem file, k' = { k.withDir c d fl mem with file := file } ∧
      SameFiles k.file file := by
  have hself := SameFiles.refl k.file
  cases sys_mmap_exit h with
  | invalid _ => exact ⟨_, _, _, k.file, (Kernel.withDir_self k c).symm, hself⟩
  | memory mem _ _ => exact ⟨_, _, mem, k.file, Kernel.withDir_free k c _ mem, hself⟩
  | place _ _ _ => exact ⟨_, _, k.mem, k.file, Kernel.withDir_free k c _ k.mem, hself⟩
  | guard _ _ _ _ _ => exact ⟨_, _, k.mem, k.file, Kernel.withDir_free k c _ k.mem, hself⟩
  | tables _ _ d _ _ _ _ => exact ⟨d, _, _, k.file, rfl, hself⟩
  | read _ d fl mem file hplaced hmapped hread =>
    exact ⟨d, fl, mem, file, rfl, hplaced.sameFiles hmapped hread⟩

/-- The process after a successful `mmap`. -/
theorem sys_mmap_some (h : sys_mmap c a ext k = .ok (k', some va)) :
    Placed k c a va ∧ (k.proc c).currentMappingIndex < NMAP ∧
      ∃ d fl mem file, Mapped (k.proc c).pgdir d va (a.got k) (k.freelist.drop a.pages) fl ∧
        readMapping c a va a.pages ext (k.withDir c d fl k.mem) =
          .ok ({ k.withDir c d fl mem with file := file }, true) ∧
        SameFiles k.file file ∧
        k' = Kernel.modify { k with freelist := fl, mem := mem, file := file } c fun p => { p with
          pgdir := d
          mapEntries := Function.update p.mapEntries p.currentMappingIndex (a.entry va a.pages)
          currentMappingIndex := p.currentMappingIndex + 1 } := by
  cases sys_mmap_exit h with
  | done va d fl mem file hplaced hmapped hread hindex =>
    exact ⟨hplaced, hindex, d, fl, mem, file, hmapped, hread, hplaced.sameFiles hmapped hread, rfl⟩

/-! ### `sys_munmap` -/

/-- The number of pages that `munmap` clears. -/
def munmapPages (length : ℤ) : ℕ :=
  (pagesOf length).toNat

/-- The address is aligned and the record `i` is found for it. -/
structure Found (k : Kernel) (c : Slot) (virtualAddress : ℤ) (i : ℕ) : Prop where
  aligned : Int.tmod virtualAddress PGSIZE = 0
  found : findmappingmetadata (k.proc c) (pageOf virtualAddress) = some i

/-- The exits of `sys_munmap`. -/
inductive MunmapExit (c : Slot) (virtualAddress length : ℤ) (ext : External) (k : Kernel) :
    Kernel → Bool → Prop
  | misaligned (haligned : Int.tmod virtualAddress PGSIZE ≠ 0) :
      MunmapExit c virtualAddress length ext k k false
  | unknown (haligned : Int.tmod virtualAddress PGSIZE = 0)
      (hnone : findmappingmetadata (k.proc c) (pageOf virtualAddress) = none) :
      MunmapExit c virtualAddress length ext k k false
  | write (i : ℕ) (k₁ : Kernel) (hfound : Found k c virtualAddress i)
      (hwrite : writeMapping c ((k.proc c).mapEntries i) (pageOf virtualAddress) ext k =
        .ok (k₁, false)) :
      MunmapExit c virtualAddress length ext k k₁ false
  | clear (i : ℕ) (k₁ k₂ : Kernel) (hfound : Found k c virtualAddress i)
      (hwrite : writeMapping c ((k.proc c).mapEntries i) (pageOf virtualAddress) ext k =
        .ok (k₁, true))
      (hclear : clearPages c (pageOf virtualAddress) (munmapPages length) k₁ = .ok (k₂, false)) :
      MunmapExit c virtualAddress length ext k k₂ false
  | done (i : ℕ) (k₁ k₂ : Kernel) (hfound : Found k c virtualAddress i)
      (hwrite : writeMapping c ((k.proc c).mapEntries i) (pageOf virtualAddress) ext k =
        .ok (k₁, true))
      (hclear : clearPages c (pageOf virtualAddress) (munmapPages length) k₁ = .ok (k₂, true)) :
      MunmapExit c virtualAddress length ext k (k₂.withEntry c i .unused) true

/-- **Every outcome of `sys_munmap` is one of the exits.** -/
theorem sys_munmap_exit {virtualAddress length : ℤ} {b : Bool}
    (h : sys_munmap c virtualAddress length ext k = .ok (k', b)) :
    MunmapExit c virtualAddress length ext k k' b := by
  unfold sys_munmap at h
  split at h
  · rename_i ha
    cases h
    exact .misaligned ha
  · rename_i ha
    push Not at ha
    dsimp only at h
    split at h
    · rename_i hnone
      cases h
      exact .unknown ha hnone
    · rename_i i hi
      obtain ⟨⟨k₁, written⟩, h₁, h₂⟩ := bind_eq_ok h
      dsimp only at h₂
      cases written with
      | false =>
        cases h₂
        exact .write i _ ⟨ha, hi⟩ h₁
      | true =>
        rw [if_neg (by decide)] at h₂
        obtain ⟨⟨k₂, cleared⟩, h₃, h₄⟩ := bind_eq_ok h₂
        dsimp only at h₄
        cases cleared with
        | false =>
          cases h₄
          exact .clear i _ _ ⟨ha, hi⟩ h₁ h₃
        | true =>
          rw [if_neg (by decide)] at h₄
          obtain ⟨k₃, h₅, h₆⟩ := bind_eq_ok h₄
          cases h₆
          obtain ⟨-, rfl⟩ := setEntry_ok h₅
          exact .done i _ _ ⟨ha, hi⟩ h₁ h₃

/-- What growth, and each change of a file's offset and inode keep, the write-back keeps. -/
theorem writeMapping_keeps {P : Kernel → Prop} {S : ℕ → Prop} {m : MapEntry} {b : Bool}
    (hgrow : GrowthKeeps c S P)
    (hoff : ∀ k f off, P k → P (k.setFile f { k.file f with off := off }))
    (hinode : ∀ k inum ip, P k → P { k with inode := Function.update k.inode inum ip })
    (hS : ∀ x, va ≤ x → x < va + m.numPages → S x)
    (h : writeMapping c m va ext k = .ok (k', b)) (hk : P k) : P k' := by
  unfold writeMapping at h
  split at h
  · cases h
    exact hk
  · obtain ⟨f, -, h₂⟩ := bind_eq_ok h
    refine filewrite_keeps hgrow (fun k off => hoff k f off) (fun k ip => hinode k _ ip) ?_ h₂
      (hoff _ _ _ hk)
    intro i hi
    have hpos : 0 < PGSIZE := by decide
    refine hS _ ((Nat.le_div_iff_mul_le hpos).mpr (by omega)) ((Nat.div_lt_iff_lt_mul hpos).mpr ?_)
    rw [Nat.add_mul]
    omega

/-! ### Faults -/

theorem kfreeAll_error {vs : List ℕ} {e : Fault} (h : kfreeAll vs k = .error e) :
    e = .kfree ∧ ∃ v ∈ vs, ¬ k.Freeable v := by
  refine ⟨?_, ?_⟩
  · induction vs generalizing k with
    | nil => cases h
    | cons v vs ih =>
      rw [kfreeAll_cons] at h
      obtain h₁ | ⟨k₁, -, h₂⟩ := bind_eq_error h
      · unfold kfree at h₁
        split at h₁
        · cases h₁
        · exact (Except.error.inj h₁).symm
      · exact ih h₂
  · by_contra hall
    push Not at hall
    obtain ⟨k₁, h₁⟩ := kfreeAll_of_freeable hall
    rw [h] at h₁
    cases h₁

theorem ofileAt_error {p : Proc} {fd : ℤ} {e : Fault} (h : ofileAt p fd = .error e) :
    e = .ofileIndex ∧ ¬ (0 ≤ fd ∧ fd < NOFILE) ∨
      e = .nullFile ∧ 0 ≤ fd ∧ fd < NOFILE ∧ p.ofile fd.toNat = none := by
  unfold ofileAt at h
  split at h
  · rename_i hfd
    split at h
    · cases h
    · rename_i hnone
      cases h
      exact Or.inr ⟨rfl, hfd.1, hfd.2, hnone⟩
  · rename_i hfd
    cases h
    exact Or.inl ⟨rfl, hfd⟩

theorem fileread_error {f n : ℕ} {e : Fault} (h : fileread f n ext k = .error e) :
    e = .filetype ∧ (k.file f).type = .FD_NONE := by
  unfold fileread at h
  dsimp only at h
  split at h
  · cases h
  · split at h
    · cases h
    · cases h
    · rename_i ht
      exact ⟨(Except.error.inj h).symm, ht⟩

/-- The faults that the descriptor of a file mapping can lead to. -/
def FileFault (k : Kernel) (c : Slot) (fd : ℤ) (e : Fault) : Prop :=
  ofileAt (k.proc c) fd = .error e ∨
    e = .filetype ∧ ∃ f, ofileAt (k.proc c) fd = .ok f ∧ (k.file f).type = .FD_NONE

theorem readMapping_error {d : PgDir} {ps fl fl' : List ℕ} {e : Fault}
    (hm : Mapped d (k.proc c).pgdir va ps fl fl')
    (h : readMapping c a va ps.length ext k = .error e) :
    has a.flags MAP_ANONYMOUS = false ∧ FileFault k c a.fd e := by
  unfold readMapping at h
  split at h
  · cases h
  · rename_i hanon
    refine ⟨Bool.not_eq_true _ ▸ hanon, ?_⟩
    obtain h₁ | ⟨f, h₁, h₂⟩ := bind_eq_error h
    · exact Or.inl h₁
    · obtain h₃ | ⟨⟨k₁, buffer⟩, h₃, h₄⟩ := bind_eq_error h₂
      · obtain ⟨rfl, ht⟩ := fileread_error h₃
        refine Or.inr ⟨rfl, f, h₁, ?_⟩
        rwa [show ((k.setFile f { k.file f with off := 0 }).file f) = { k.file f with off := 0 } from
          Function.update_self ..] at ht
      · obtain ⟨⟨off, rfl⟩, hlen⟩ := fileread_ok h₃
        cases buffer with
        | none => cases h₄
        | some bytes =>
          have hle := hlen bytes rfl
          have hb : k.Backed c (va * PGSIZE) bytes.length :=
            hm.backed (le_refl _) (by rw [Nat.add_mul]; omega)
          obtain ⟨mem, hrun, -, -⟩ := storeBytes_present (k := (k.setFile f
            { k.file f with off := 0 }).setFile f
            { (k.setFile f { k.file f with off := 0 }).file f with off := off }) hb
          dsimp only at h₄
          rw [hrun] at h₄
          cases h₄

theorem allocPages_error {n : ℕ} {got : List ℕ} {e : Fault} (h : allocPages n got k = .error e) :
    e = .kfree ∧ k.freelist.length < n ∧ ∃ v ∈ got ++ k.freelist, ¬ k.Freeable v := by
  induction n generalizing got k with
  | zero => cases h
  | succ n ih =>
    cases hf : k.freelist with
    | nil =>
      simp only [allocPages, hf, kalloc] at h
      obtain h₁ | ⟨k₁, -, h₂⟩ := bind_eq_error h
      · obtain ⟨he, hv⟩ := kfreeAll_error h₁
        rw [List.append_nil]
        exact ⟨he, Nat.succ_pos _, hv⟩
      · cases h₂
    | cons p rest =>
      simp only [allocPages, hf, kalloc] at h
      obtain ⟨he, hlt, v, hv, hfree⟩ := ih h
      refine ⟨he, Nat.succ_lt_succ hlt, v, ?_, hfree⟩
      rwa [List.append_assoc] at hv

/-- **The faults of `sys_mmap`**: a negative length, a free page that `kfree` does not take back, the
descriptor, or no entry left. -/
theorem sys_mmap_error {e : Fault} (h : sys_mmap c a ext k = .error e) :
    e = .arrayLength ∧ pagesOf a.length < 0 ∨
      (e = .kfree ∧ k.freelist.length < a.pages ∧ ∃ v ∈ k.freelist, ¬ k.Freeable v) ∨
      (has a.flags MAP_ANONYMOUS = false ∧ FileFault k c a.fd e) ∨
      e = .mapIndex ∧ NMAP ≤ (k.proc c).currentMappingIndex := by
  unfold sys_mmap at h
  split at h
  · cases h
  · split at h
    · rename_i hn
      exact Or.inl ⟨(Except.error.inj h).symm, hn⟩
    · refine Or.inr ?_
      dsimp only at h
      rw [show (pagesOf a.length).toNat = a.pages from rfl] at h
      obtain h₁ | ⟨⟨k₁, pages⟩, h₁, h₂⟩ := bind_eq_error h
      · exact Or.inl (allocPages_error h₁)
      · refine Or.inr ?_
        obtain ⟨hroom, rfl, rfl⟩ | ⟨-, rfl, -⟩ := allocPages_ok h₁
        · dsimp only at h₂
          split at h₂
          · cases h₂
          · rename_i va hplace
            split at h₂
            · cases h₂
            · obtain ⟨hlo, hhi, hfree⟩ := placeMapping_some hplace
              have hlen : ([] ++ k.freelist.take a.pages).length = a.pages := by
                rw [List.nil_append, List.length_take, min_eq_left hroom]
              have hpages : ∀ x, va ≤ x → x < va + ([] ++ k.freelist.take a.pages).length →
                  (k.proc c).pgdir.pte x = none := by
                intro x hx hlt
                rw [hlen] at hlt
                exact canallocatva_pte hfree hhi.le hx hlt
              obtain ⟨⟨d, fl, mapped⟩, h₃⟩ : ∃ r, mapPages (k.proc c).pgdir va
                  ([] ++ k.freelist.take a.pages) (k.freelist.drop a.pages) = .ok r :=
                mapPages_free (by rw [hlen]; exact canallocatva_le hfree hhi.le) hpages
              rw [h₃, ok_bind] at h₂
              dsimp only at h₂
              cases mapped with
              | false => cases h₂
              | true =>
                rw [if_neg (by decide)] at h₂
                obtain ⟨m, hm, hmapped, ⟨-, rfl⟩ | ⟨hb, -⟩⟩ := mapPages_ok h₃
                · rw [List.take_length] at hmapped
                  have hmapped' : Mapped (k.proc c).pgdir
                      ((k.withDir c d fl k.mem).proc c).pgdir va ([] ++ k.freelist.take a.pages)
                      (k.freelist.drop a.pages) fl := by
                    rw [Kernel.withDir_self_proc]
                    exact hmapped
                  obtain h₄ | ⟨⟨k₂, readOk⟩, h₄, h₅⟩ := bind_eq_error h₂
                  · refine Or.inl ?_
                    have hread : readMapping c a va ([] ++ k.freelist.take a.pages).length ext
                        (k.withDir c d fl k.mem) = .error e := by
                      rw [hlen]
                      exact h₄
                    obtain ⟨hanon, hfault⟩ := readMapping_error hmapped' hread
                    unfold FileFault at hfault
                    rw [Kernel.withDir_self_proc] at hfault
                    exact ⟨hanon, hfault⟩
                  · refine Or.inr ?_
                    have hread : readMapping c a va ([] ++ k.freelist.take a.pages).length ext
                        (k.withDir c d fl k.mem) = .ok (k₂, readOk) := by
                      rw [hlen]
                      exact h₄
                    obtain ⟨mem, file, rfl, -⟩ := readMapping_ok hmapped' hread
                    have hp : (Kernel.proc { k.withDir c d fl k.mem with mem := mem, file := file } c) =
                        { k.proc c with pgdir := d } := Kernel.withDir_self_proc k c d fl k.mem
                    dsimp only at h₅
                    cases readOk with
                    | false => cases h₅
                    | true =>
                      rw [if_neg (by decide), hp] at h₅
                      obtain h₆ | ⟨k₃, -, h₆⟩ := bind_eq_error h₅
                      · unfold setEntry at h₆
                        split at h₆
                        · cases h₆
                        · rename_i hi
                          exact ⟨(Except.error.inj h₆).symm, not_lt.mp hi⟩
                      · cases h₆
                · cases hb
        · cases h₂

/-- The only panic in clearing a row of entries: a page that `kfree` does not take. -/
theorem clearPages_error {n : ℕ} {e : Fault} (h : clearPages c va n k = .error e) :
    e = .kfree ∧ ∃ j < n, ∃ pte, walkpgdir (k.proc c).pgdir (va + j) = some pte ∧
      ¬ k.Freeable (pte.getD 0) := by
  induction n generalizing va k with
  | zero => cases h
  | succ n ih =>
    obtain h₁ | ⟨⟨k₁, cleared⟩, h₁, h₂⟩ := bind_eq_error h
    · unfold clearpte at h₁
      split at h₁
      · cases h₁
      · rename_i pte hw
        dsimp only at h₁
        split at h₁
        · cases h₁
        · obtain h₂ | ⟨k₁, -, h₂⟩ := bind_eq_error h₁
          · unfold kfree at h₂
            split at h₂
            · cases h₂
            · rename_i hv
              exact ⟨(Except.error.inj h₂).symm, 0, Nat.succ_pos _, pte, hw, hv⟩
          · cases h₂
    · dsimp only at h₂
      obtain ⟨rfl, rfl, -⟩ | ⟨pte, fl, mem, rfl, -, rfl, -⟩ := clearpte_ok h₁
      · cases h₂
      · obtain ⟨he, j, hj, pte', hw, hv⟩ := ih h₂
        rw [Kernel.withDir_self_proc, walkpgdir_clear _ (by omega)] at hw
        refine ⟨he, j + 1, Nat.succ_lt_succ hj, pte', ?_, hv⟩
        rwa [show va + (j + 1) = va + 1 + j by omega]

/-- **The faults of `sys_munmap`**: in the write-back, or a page that `kfree` does not take. -/
theorem sys_munmap_error {virtualAddress length : ℤ} {e : Fault}
    (h : sys_munmap c virtualAddress length ext k = .error e) :
    ∃ i, Found k c virtualAddress i ∧
      (writeMapping c ((k.proc c).mapEntries i) (pageOf virtualAddress) ext k = .error e ∨
        ∃ k₁, writeMapping c ((k.proc c).mapEntries i) (pageOf virtualAddress) ext k =
            .ok (k₁, true) ∧
          clearPages c (pageOf virtualAddress) (munmapPages length) k₁ = .error e) := by
  unfold sys_munmap at h
  split at h
  · cases h
  · rename_i ha
    push Not at ha
    dsimp only at h
    split at h
    · cases h
    · rename_i i hi
      refine ⟨i, ⟨ha, hi⟩, ?_⟩
      obtain h₁ | ⟨⟨k₁, written⟩, h₁, h₂⟩ := bind_eq_error h
      · exact Or.inl h₁
      · dsimp only at h₂
        cases written with
        | false => cases h₂
        | true =>
          rw [if_neg (by decide)] at h₂
          obtain h₃ | ⟨⟨k₂, cleared⟩, h₃, h₄⟩ := bind_eq_error h₂
          · exact Or.inr ⟨k₁, h₁, h₃⟩
          · dsimp only at h₄
            cases cleared with
            | false => cases h₄
            | true =>
              rw [if_neg (by decide)] at h₄
              obtain h₅ | ⟨k₃, -, h₅⟩ := bind_eq_error h₄
              · unfold setEntry at h₅
                rw [if_pos (findmappingmetadata_some hi).1] at h₅
                cases h₅
              · cases h₅

/-! ### Successes -/

/-- A mapping can be filled: it is anonymous, or its descriptor stands for a readable regular file. -/
def Fillable (k : Kernel) (c : Slot) (a : MmapArgs) : Prop :=
  has a.flags MAP_ANONYMOUS = true ∨ ∃ f, ofileAt (k.proc c) a.fd = .ok f ∧
    (k.file f).type = .FD_INODE ∧ (k.file f).readable = true ∧ (k.inode (k.file f).ip).isDev = false

theorem Fillable.no_fault (h : Fillable k c a) {e : Fault} :
    ¬ (has a.flags MAP_ANONYMOUS = false ∧ FileFault k c a.fd e) := by
  rintro ⟨hanon, hfault⟩
  rcases h with h | ⟨f, hf, ht, -⟩
  · rw [h] at hanon
    cases hanon
  · rcases hfault with he | ⟨-, g, hg, htg⟩
    · rw [hf] at he
      cases he
    · rw [hf] at hg
      cases hg
      rw [ht] at htg
      cases htg

/-- What is read of a regular file. -/
theorem fileread_regular {f n : ℕ} (ht : (k.file f).type = .FD_INODE)
    (hr : (k.file f).readable = true) (hdev : (k.inode (k.file f).ip).isDev = false) :
    fileread f n ext k = .ok
      (k.setFile f { k.file f with
        off := (k.file f).off +
          ((readi (k.inode (k.file f).ip) (k.file f).off n).getD []).length },
        readi (k.inode (k.file f).ip) (k.file f).off n) := by
  unfold fileread
  dsimp only
  rw [if_neg (by rw [hr]; decide)]
  split
  · rename_i hp
    rw [ht] at hp
    cases hp
  · rw [if_neg (by rw [hdev]; decide)]
  · rename_i hp
    rw [ht] at hp
    cases hp

/-- A mapping that can be filled is filled. -/
theorem Fillable.read (h : Fillable k c a) {n : ℕ} {b : Bool}
    (hread : readMapping c a va n ext k = .ok (k', b)) : b = true := by
  unfold readMapping at hread
  split at hread
  · cases hread
    rfl
  · rename_i hanon
    rcases h with h | ⟨f, hf, ht, hr, hdev⟩
    · exact absurd h hanon
    · rw [hf, ok_bind] at hread
      dsimp only at hread
      have hself : (k.setFile f { k.file f with off := 0 }).file f = { k.file f with off := 0 } :=
        Function.update_self ..
      rw [fileread_regular (by rw [hself]; exact ht) (by rw [hself]; exact hr)
        (by rw [hself]; exact hdev), ok_bind, hself] at hread
      unfold readi at hread
      rw [if_neg (Nat.not_lt_zero _)] at hread
      dsimp only at hread
      obtain ⟨k₁, -, h₂⟩ := bind_eq_ok hread
      cases h₂
      rfl

/-- **`mmap` succeeds** where the mapping is placed, has its pages of entries and can be filled, unless
no entry is left. -/
theorem sys_mmap_placed (ext : External) (h : Placed k c a va)
    (htables : ∀ j < a.pages, ((k.proc c).pgdir.table ((va + j) / 1024)).isSome)
    (hfill : Fillable k c a) :
    (k.proc c).currentMappingIndex < NMAP ∧ (∃ k', sys_mmap c a ext k = .ok (k', some va)) ∨
      NMAP ≤ (k.proc c).currentMappingIndex ∧ sys_mmap c a ext k = .error .mapIndex := by
  cases hr : sys_mmap c a ext k with
  | error e =>
    obtain ⟨-, hn⟩ | ⟨-, hlt, -⟩ | hfault | ⟨rfl, hle⟩ := sys_mmap_error hr
    · exact absurd h.nonneg (not_le.mpr hn)
    · exact absurd h.room (not_le.mpr hlt)
    · exact absurd hfault hfill.no_fault
    · exact Or.inr ⟨hle, rfl⟩
  | ok r =>
    obtain ⟨k', r⟩ := r
    cases sys_mmap_exit hr with
    | invalid hv =>
      rw [h.valid] at hv
      cases hv
    | memory mem _ hlt => exact absurd h.room (not_le.mpr hlt)
    | place _ _ hn =>
      rw [h.place] at hn
      cases hn
    | guard va' _ _ hp hn =>
      rw [h.place] at hp
      cases hp
      rw [h.guard] at hn
      cases hn
    | tables va' m d hplaced hlt hmapped htable =>
      have hp := hplaced.place
      rw [h.place] at hp
      cases hp
      have ht := htables m hlt
      rw [hmapped.table_none htable] at ht
      cases ht
    | read va' d fl mem file hplaced hmapped hread =>
      have hfill' : Fillable (k.withDir c d fl k.mem) c a := by
        unfold Fillable
        rw [Kernel.withDir_self_proc]
        exact hfill
      cases hfill'.read hread
    | done va' d fl mem file hplaced hmapped hread hindex =>
      have hp := hplaced.place
      rw [h.place] at hp
      cases hp
      exact Or.inl ⟨hindex, _, rfl⟩

/-- **`munmap` succeeds** where the write-back does, over present pages that can be freed. -/
theorem sys_munmap_succeeds {virtualAddress length : ℤ} {i : ℕ} {k₁ : Kernel}
    (hfound : Found k c virtualAddress i)
    (hwrite : writeMapping c ((k.proc c).mapEntries i) (pageOf virtualAddress) ext k =
      .ok (k₁, true))
    (hle : pageOf virtualAddress + munmapPages length ≤ KERNBASE)
    (hpages : ∀ j < munmapPages length, ∃ pa,
      (k₁.proc c).pgdir.pte (pageOf virtualAddress + j) = some pa ∧ k₁.Freeable pa) :
    ∃ k₂, clearPages c (pageOf virtualAddress) (munmapPages length) k₁ = .ok (k₂, true) ∧
      sys_munmap c virtualAddress length ext k = .ok (k₂.withEntry c i .unused, true) := by
  have hone : ∀ {j}, Found k c virtualAddress j → j = i := by
    intro j hj
    have he := hj.found
    rw [hfound.found] at he
    exact (Option.some.inj he).symm
  have hwalk : ∀ j < munmapPages length, ∃ pa, k₁.Freeable pa ∧
      walkpgdir (k₁.proc c).pgdir (pageOf virtualAddress + j) = some (some pa) := by
    intro j hj
    obtain ⟨pa, hpa, hfree⟩ := hpages j hj
    obtain ⟨t, ht⟩ := Option.isSome_iff_exists.mp ((k₁.proc c).pgdir.backed _ _ hpa)
    refine ⟨pa, hfree, ?_⟩
    unfold walkpgdir
    rw [if_pos (by omega), ht, hpa]
    rfl
  cases hr : sys_munmap c virtualAddress length ext k with
  | error e =>
    obtain ⟨j, hj, he | ⟨k₂, hw, he⟩⟩ := sys_munmap_error hr
    · rw [hone hj, hwrite] at he
      cases he
    · rw [hone hj, hwrite] at hw
      cases hw
      obtain ⟨-, l, hl, pte, hpte, hnot⟩ := clearPages_error he
      obtain ⟨pa, hfree, hw⟩ := hwalk l hl
      rw [hw] at hpte
      cases hpte
      exact absurd hfree hnot
  | ok r =>
    obtain ⟨k', b⟩ := r
    cases sys_munmap_exit hr with
    | misaligned hne => exact absurd hfound.aligned hne
    | unknown _ hnone =>
      rw [hfound.found] at hnone
      cases hnone
    | write j _ hj hw =>
      rw [hone hj, hwrite] at hw
      cases hw
    | clear j k₂ k₃ hj hw hclear =>
      rw [hone hj, hwrite] at hw
      cases hw
      obtain ⟨m, -, d, fl, mem, -, -, -, ⟨hb, -⟩ | ⟨-, hlt, hnone⟩⟩ := clearPages_ok hclear
      · cases hb
      · obtain ⟨pa, -, hw⟩ := hwalk m hlt
        rw [hw] at hnone
        cases hnone
    | done j k₂ k₃ hj hw hclear =>
      rw [hone hj, hwrite] at hw
      cases hw
      obtain rfl := hone hj
      exact ⟨k₃, hclear, rfl⟩

end OperatingSystems.Vm
