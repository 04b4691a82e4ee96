import OperatingSystems.Vm.WriteBack

/-!
# What a failed `mmap` or `munmap` leaves behind

`mmap` takes the physical pages before it looks at the address, and `munmap` writes to the file and clears
pages before it can fail; neither undoes what it has done.

* **`Unchanged`** — nothing that a process or a file can see has changed, and no page is lost.
* **`MmapHarmless`**, **`mmap_unchanged_iff`** — when a failed `mmap` changes nothing.
* **`filewrite_cases`** — what the write-back of a file does; **`clearPages_frees`**: what clearing frees.
* **`MunmapHarmless`**, **`munmap_unchanged_iff`** — when a failed `munmap` changes nothing.
* **`failures_unchanged_iff`** — both together.
-/

namespace OperatingSystems.Vm

open Outcomes WriteBack

variable {k k' k₁ k₂ : Kernel} {c : Slot} {a : MmapArgs} {ext : External} {va n : ℕ} {d d' : PgDir}

/-- The same free pages, but for those that have become page tables; the same mappings and records of
process `c`; the same inodes, and the same offsets of the open files. -/
structure Unchanged (c : Slot) (k k' : Kernel) : Prop where
  freed : ∀ x ∈ k'.freelist, x ∈ k.freelist
  taken : ∀ x ∈ k.freelist, x ∈ k'.freelist ∨
    ∃ pdx, (k.proc c).pgdir.table pdx = none ∧ (k'.proc c).pgdir.table pdx = some x
  pte : ∀ x, MMAPBASE ≤ x → x < KERNBASE → (k'.proc c).pgdir.pte x = (k.proc c).pgdir.pte x
  entries : ∀ i < NMAP, (k'.proc c).mapEntries i = (k.proc c).mapEntries i
  index : (k'.proc c).currentMappingIndex = (k.proc c).currentMappingIndex
  inode : k'.inode = k.inode
  off : ∀ f, (k'.file f).off = (k.file f).off

theorem Unchanged.refl (c : Slot) (k : Kernel) : Unchanged c k k :=
  ⟨fun _ h => h, fun _ h => .inl h, fun _ _ _ => rfl, fun _ _ => rfl, rfl, rfl, fun _ => rfl⟩

/-- Only the free list and the contents of pages are different. -/
theorem unchanged_free_iff {fl : List ℕ} {mem : ℕ → Page} :
    Unchanged c k { k with freelist := fl, mem := mem } ↔
      (∀ x ∈ fl, x ∈ k.freelist) ∧ ∀ x ∈ k.freelist, x ∈ fl := by
  constructor
  · intro h
    refine ⟨h.freed, fun x hx => ?_⟩
    obtain hfl | ⟨pdx, hnone, hsome⟩ := h.taken x hx
    · exact hfl
    · -- the page directory is the same
      have hsame : (Kernel.proc { k with freelist := fl, mem := mem } c).pgdir.table pdx = none := hnone
      rw [hsame] at hsome
      cases hsome
  · intro ⟨hfreed, htaken⟩
    exact ⟨hfreed, fun x hx => .inl (htaken x hx), fun _ _ _ => rfl, fun _ _ => rfl, rfl, rfl, fun _ => rfl⟩

/-! ### `mmap` -/

/-- There is no address for the mapping, or none with a free page for the guard. -/
def NoPlace (k : Kernel) (c : Slot) (a : MmapArgs) : Prop :=
  ∀ va, placeMapping (k.proc c) a a.pages = some va → guardOk (k.proc c) a va a.pages = false

/-- **When a failed `mmap` changes nothing**: the arguments are invalid; there are too few free pages; there
is no place, and the pages that were taken are on the free list a second time (so if none were taken); or no
page was asked for, and the file was at its beginning. -/
def MmapHarmless (k : Kernel) (c : Slot) (a : MmapArgs) : Prop :=
  a.valid = false ∨ k.freelist.length < a.pages ∨
    (NoPlace k c a ∧ ∀ x ∈ k.freelist.take a.pages, x ∈ k.freelist.drop a.pages) ∨
    ¬NoPlace k c a ∧ a.pages = 0 ∧ ∀ f, ofileAt (k.proc c) a.fd = .ok f → (k.file f).off = 0

theorem Placed.not_noPlace (h : Placed k c a va) : ¬NoPlace k c a := by
  intro hno
  have hguard := hno va h.place
  rw [h.guard] at hguard
  cases hguard

/-- The rest of `mmap` where there is room for the mapping. -/
theorem sys_mmap_eq_placed (ext : External) (h : Placed k c a va) :
    sys_mmap c a ext k =
      (mapPages (k.proc c).pgdir va (a.got k) (k.freelist.drop a.pages) >>= fun r =>
        if !r.2.2 then .ok (k.withDir c r.1 r.2.1 k.mem, none)
        else readMapping c a va a.pages ext (k.withDir c r.1 r.2.1 k.mem) >>= fun r =>
          if !r.2 then .ok (r.1, none)
          else setEntry c (r.1.proc c).currentMappingIndex (a.entry va a.pages) r.1 >>= fun k =>
            .ok (k.modify c fun p => { p with currentMappingIndex := p.currentMappingIndex + 1 },
              some va)) := by
  have halloc := @allocPages_of_le k _ [] h.room
  rw [List.nil_append] at halloc
  unfold sys_mmap
  rw [if_neg (by rw [h.valid]; decide), if_neg (not_lt.mpr h.nonneg)]
  show (allocPages a.pages [] k >>= _) = _
  rw [halloc, ok_bind]
  dsimp only
  rw [show (pagesOf a.length).toNat = a.pages from rfl, h.place]
  dsimp only
  rw [if_neg (by rw [h.guard]; decide)]
  rfl

/-- A failed read has put the file at its beginning. -/
theorem readMapping_false (h : readMapping c a va n ext k = .ok (k', false)) :
    ∃ f, ofileAt (k.proc c) a.fd = .ok f ∧ k' = k.setFile f { k.file f with off := 0 } := by
  unfold readMapping at h
  split at h
  · cases h
  · obtain ⟨f, hf, h₁⟩ := bind_eq_ok h
    refine ⟨f, hf, ?_⟩
    obtain ⟨⟨k₁, buffer⟩, h₂, h₃⟩ := bind_eq_ok h₁
    cases buffer with
    | some bytes =>
      obtain ⟨k₂, -, h₄⟩ := bind_eq_ok h₃
      cases h₄
    | none =>
      cases h₃
      unfold fileread at h₂
      dsimp only at h₂
      split at h₂
      · cases h₂
        rfl
      · split at h₂
        · rw [Except.ok.injEq, Prod.mk.injEq] at h₂
          exact h₂.1.symm
        · rw [Except.ok.injEq, Prod.mk.injEq] at h₂
          obtain ⟨h₂, hnone⟩ := h₂
          rw [← h₂, hnone]
          unfold Kernel.setFile
          dsimp only
          rw [Function.update_idem, Function.update_self]
          rfl
        · cases h₂

theorem setFile_unchanged_iff {f : ℕ} :
    Unchanged c k (k.setFile f { k.file f with off := 0 }) ↔ (k.file f).off = 0 := by
  constructor
  · intro h
    have hoff := h.off f
    rw [setFile_self] at hoff
    exact hoff.symm
  · intro hoff
    have hself : k.setFile f { k.file f with off := 0 } = k := by
      rw [← hoff]
      exact congrArg (fun file => { k with file := file }) (Function.update_eq_self ..)
    rw [hself]
    exact .refl c k

/-- Either the first page has been mapped, or there was none left for its page table. -/
theorem mapPages_first {pa : ℕ} {ps fl fl' : List ℕ} {b : Bool}
    (h : mapPages d va (pa :: ps) fl = .ok (d', fl', b)) :
    d.pte va = none ∧ (d'.pte va = some pa ∨ d' = d ∧ fl' = []) := by
  obtain ⟨⟨d₁, fl₁, b₁⟩, h₁, h₂⟩ := bind_eq_ok h
  dsimp only at h₂
  obtain ⟨-, hnone, ⟨rfl, hm⟩ | ⟨rfl, rfl, rfl, rfl, -⟩⟩ := mappages_ok h₁
  · obtain ⟨m, -, hm', -⟩ := mapPages_ok h₂
    refine ⟨hnone, .inl ?_⟩
    rw [hm'.pte, if_neg (by omega), hm.pte, if_pos ⟨le_rfl, Nat.lt_succ_self va⟩, Nat.sub_self]
    rfl
  · cases h₂
    exact ⟨hnone, .inr ⟨rfl, rfl⟩⟩

/-- Once pages have been taken for a place, something has changed. -/
theorem Placed.not_unchanged {fl : List ℕ} {b : Bool} (h : Placed k c a va) (hpos : 0 < a.pages)
    (hmap : mapPages (k.proc c).pgdir va (a.got k) (k.freelist.drop a.pages) = .ok (d, fl, b))
    (hdir : (k'.proc c).pgdir = d) (hfl : k'.freelist = fl) : ¬Unchanged c k k' := by
  intro hsame
  obtain ⟨hlo, hhi, -⟩ := placeMapping_some h.place
  have hlen := h.length_got
  cases hgot : a.got k with
  | nil =>
    rw [hgot] at hlen
    exact absurd hlen hpos.ne
  | cons pa ps =>
    rw [hgot] at hmap
    obtain ⟨hnone, hsome | ⟨rfl, rfl⟩⟩ := mapPages_first hmap
    · have hpte := hsame.pte va hlo hhi
      rw [hdir, hsome, hnone] at hpte
      cases hpte
    · -- the page that was taken is neither free nor a page table
      have hmem : pa ∈ k.freelist := by
        apply List.mem_of_mem_take
        show pa ∈ a.got k
        rw [hgot]
        exact List.mem_cons_self
      obtain hfree | ⟨pdx, htable, htable'⟩ := hsame.taken pa hmem
      · rw [hfl] at hfree
        cases hfree
      · rw [hdir, htable] at htable'
        cases htable'

/-- A failed `mmap` that has found a place. -/
theorem Placed.unchanged_iff (hplaced : Placed k c a va) (h : sys_mmap c a ext k = .ok (k', none)) :
    Unchanged c k k' ↔ a.pages = 0 ∧ ∀ f, ofileAt (k.proc c) a.fd = .ok f → (k.file f).off = 0 := by
  rw [sys_mmap_eq_placed ext hplaced] at h
  obtain ⟨⟨d, fl, mapped⟩, hmap, h₁⟩ := bind_eq_ok h
  dsimp only at h₁
  rcases Nat.eq_zero_or_pos a.pages with hzero | hpos
  · -- nothing is mapped, so the read has failed
    have hgot : a.got k = [] := List.eq_nil_of_length_eq_zero (hplaced.length_got.trans hzero)
    rw [hgot] at hmap
    cases hmap
    rw [if_neg (by decide), hzero, List.drop_zero, Kernel.withDir_self] at h₁
    obtain ⟨⟨k₁, readOk⟩, hread, h₂⟩ := bind_eq_ok h₁
    dsimp only at h₂
    cases readOk with
    | true =>
      rw [if_neg (by decide)] at h₂
      obtain ⟨k₂, -, h₃⟩ := bind_eq_ok h₂
      cases h₃
    | false =>
      cases h₂
      obtain ⟨f, hf, rfl⟩ := readMapping_false hread
      rw [setFile_unchanged_iff, and_iff_right hzero]
      constructor
      · intro hoff g hg
        rw [hf] at hg
        cases hg
        exact hoff
      · exact fun hoff => hoff f hf
  · refine iff_of_false ?_ fun hharmless => absurd hharmless.1 hpos.ne'
    cases mapped with
    | false =>
      cases h₁
      exact hplaced.not_unchanged hpos hmap (congrArg Proc.pgdir (Kernel.withDir_self_proc k c d fl k.mem)) rfl
    | true =>
      rw [if_neg (by decide)] at h₁
      obtain ⟨⟨k₁, readOk⟩, hread, h₂⟩ := bind_eq_ok h₁
      dsimp only at h₂
      cases readOk with
      | true =>
        rw [if_neg (by decide)] at h₂
        obtain ⟨k₂, -, h₃⟩ := bind_eq_ok h₂
        cases h₃
      | false =>
        cases h₂
        obtain ⟨f, -, rfl⟩ := readMapping_false hread
        exact hplaced.not_unchanged hpos hmap
          (congrArg Proc.pgdir (Kernel.withDir_self_proc k c d fl k.mem)) rfl

/-- **When a failed `mmap` changes nothing.** -/
theorem mmap_unchanged_iff (h : sys_mmap c a ext k = .ok (k', none)) :
    Unchanged c k k' ↔ MmapHarmless k c a := by
  have hnowhere : NoPlace k c a → a.valid = true → a.pages ≤ k.freelist.length →
      (Unchanged c k { k with freelist := k.freelist.drop a.pages } ↔ MmapHarmless k c a) := by
    intro hno hvalid hroom
    have hfree := @unchanged_free_iff k c (k.freelist.drop a.pages) k.mem
    refine hfree.trans ?_
    have hsplit := List.take_append_drop a.pages k.freelist
    constructor
    · intro ⟨_, htaken⟩
      exact .inr (.inr (.inl ⟨hno, fun x hx => htaken x (List.mem_of_mem_take hx)⟩))
    · intro hharmless
      rcases hharmless with hinvalid | hlt | ⟨-, htwice⟩ | ⟨hplace, -⟩
      · rw [hvalid] at hinvalid
        cases hinvalid
      · exact absurd hroom (not_le.mpr hlt)
      · refine ⟨fun x hx => List.mem_of_mem_drop hx, fun x hx => ?_⟩
        rw [← hsplit, List.mem_append] at hx
        exact hx.elim (htwice x) id
      · exact absurd hno hplace
  have hfound : ∀ {va}, Placed k c a va → (Unchanged c k k' ↔ MmapHarmless k c a) := by
    intro va hplaced
    rw [hplaced.unchanged_iff h]
    constructor
    · exact fun hzero => .inr (.inr (.inr ⟨hplaced.not_noPlace, hzero⟩))
    · intro hharmless
      rcases hharmless with hinvalid | hlt | ⟨hno, -⟩ | ⟨-, hzero⟩
      · rw [hplaced.valid] at hinvalid
        cases hinvalid
      · exact absurd hplaced.room (not_le.mpr hlt)
      · exact absurd hno hplaced.not_noPlace
      · exact hzero
  cases sys_mmap_exit h with
  | invalid hinvalid => exact iff_of_true (.refl c k) (.inl hinvalid)
  | memory mem _ hlt =>
    refine iff_of_true (unchanged_free_iff.mpr ⟨?_, ?_⟩) (.inr (.inl hlt))
    · exact fun x hx => List.mem_reverse.mp hx
    · exact fun x hx => List.mem_reverse.mpr hx
  | place hvalid hroom hplace =>
    apply hnowhere _ hvalid hroom
    intro va hva
    rw [hplace] at hva
    cases hva
  | guard va hvalid hroom hplace hguard =>
    apply hnowhere _ hvalid hroom
    intro va' hva
    rw [hplace] at hva
    cases hva
    exact hguard
  | tables va m d hplaced _ _ _ => exact hfound hplaced
  | read va d fl mem file hplaced _ _ => exact hfound hplaced

/-! ### Writing back -/

/-- The inodes and the offsets of the open files are the same. -/
def FilesSame (k k' : Kernel) : Prop :=
  k'.inode = k.inode ∧ ∀ f, (k'.file f).off = (k.file f).off

theorem Grown.not_unchanged (h : Grown c k k') : ¬Unchanged c k k' := by
  intro hsame
  obtain ⟨-, i, hi, hlt⟩ := h
  rw [hsame.entries i hi] at hlt
  exact Nat.lt_irrefl _ hlt

/-- The file is as it would be after the write-back: at its beginning if it cannot be written to or is a
pipe, else behind what is written; and a regular file holds these bytes already. -/
def FileHarmless (k : Kernel) (c : Slot) (f addr n : ℕ) (ext : External) : Prop :=
  if (k.file f).writable = false ∨ (k.file f).type = .FD_PIPE then (k.file f).off = 0
  else if (k.inode (k.file f).ip).isDev then (k.file f).off = if ext.takes then n else 0
  else ∃ m, Reaches 0 n m ∧ k.Backed c addr m ∧ (k.file f).off = m ∧
    (k.inode (k.file f).ip).put (k.bytesAt c addr m) 0 = k.inode (k.file f).ip

/-- The write-back of a file fails: it cannot be written to, or a pipe or a device takes nothing, or there
is more than the largest file holds. -/
def FileFails (k : Kernel) (f n : ℕ) (ext : External) : Prop :=
  (k.file f).writable = false ∨ (k.file f).type = .FD_PIPE ∧ ext.takes = false ∨
    (k.file f).type = .FD_INODE ∧
      if (k.inode (k.file f).ip).isDev then ext.takes = false ∧ 0 < n else MAXFILESIZE < n

def WriteHarmless (k : Kernel) (c : Slot) (m : MapEntry) (va : ℕ) (ext : External) : Prop :=
  toFile m = true → ∀ f, ofileAt (k.proc c) m.fd = .ok f →
    FileHarmless k c f (va * PGSIZE) (m.numPages * PGSIZE) ext

def WriteFails (k : Kernel) (c : Slot) (m : MapEntry) (ext : External) : Prop :=
  toFile m = true ∧ ∃ f, ofileAt (k.proc c) m.fd = .ok f ∧ FileFails k f (m.numPages * PGSIZE) ext

theorem filesSame_setFile_iff {f off : ℕ} :
    FilesSame k (k.setFile f { k.file f with off := off }) ↔ (k.file f).off = off := by
  constructor
  · intro h
    have hoff := h.2 f
    rw [setFile_self] at hoff
    exact hoff.symm
  · intro h
    refine ⟨rfl, fun g => ?_⟩
    by_cases hg : g = f
    · rw [hg, setFile_self]
      exact h.symm
    · rw [setFile_of_ne hg]

theorem filesSame_wrote_iff {f : ℕ} {bs : List UInt8} :
    FilesSame k ((k.setFile f { k.file f with off := 0 }).wrote f bs) ↔
      (k.file f).off = bs.length ∧
        (k.inode (k.file f).ip).put bs 0 = k.inode (k.file f).ip := by
  have hinode : ((k.setFile f { k.file f with off := 0 }).wrote f bs).inode =
      Function.update k.inode (k.file f).ip ((k.inode (k.file f).ip).put bs 0) := by
    unfold Kernel.wrote
    rw [setFile_self]
    rfl
  have hfile : ((k.setFile f { k.file f with off := 0 }).wrote f bs).file =
      (k.setFile f { k.file f with off := bs.length }).file := by
    unfold Kernel.wrote
    rw [setFile_self]
    unfold Kernel.setFile
    dsimp only
    rw [Function.update_idem, Nat.zero_add]
  unfold FilesSame
  rw [hinode, hfile, Function.update_eq_self_iff, and_comm]
  exact and_congr_left fun _ =>
    ⟨fun h => filesSame_setFile_iff.mp ⟨rfl, h⟩, fun h => (filesSame_setFile_iff.mpr h).2⟩

theorem setFile_off_zero (k : Kernel) (f : ℕ) :
    k = k.setFile f { k.file f with off := (k.file f).off + 0 } := by
  unfold Kernel.setFile
  rw [Nat.add_zero, Function.update_eq_self]

/-- A device takes all chunks or none. -/
theorem writeChunks_device {f addr rounds : ℕ} {b : Bool} (hdev : (k.inode (k.file f).ip).isDev = true)
    (hr : n ≤ rounds) (h : writeChunks c f addr ext rounds n k = .ok (k', b)) :
    k' = k.setFile f { k.file f with off := (k.file f).off + if ext.takes then n else 0 } ∧
      (b = false ↔ ext.takes = false ∧ 0 < n) := by
  induction rounds generalizing addr n k with
  | zero =>
    obtain rfl := Nat.le_zero.mp hr
    cases h
    rw [ite_self]
    exact ⟨setFile_off_zero _ f, iff_of_false Bool.true_eq_false.mp fun h => Nat.lt_irrefl 0 h.2⟩
  | succ rounds ih =>
    unfold writeChunks at h
    by_cases hn : n = 0
    · subst hn
      cases h
      rw [ite_self]
      exact ⟨setFile_off_zero _ f, iff_of_false Bool.true_eq_false.mp fun h => Nat.lt_irrefl 0 h.2⟩
    · have hc : 0 < CHUNK := by decide
      rw [if_neg hn] at h
      unfold writei at h
      dsimp only at h
      rw [if_pos hdev, ok_bind] at h
      dsimp only at h
      cases htakes : ext.takes with
      | false =>
        rw [htakes, if_neg Bool.false_ne_true] at h
        cases h
        exact ⟨setFile_off_zero _ f, iff_of_true rfl ⟨rfl, Nat.pos_of_ne_zero hn⟩⟩
      | true =>
        rw [htakes, if_pos rfl] at h
        have hfile : (k.setFile f { k.file f with off := (k.file f).off + min n CHUNK }).file f =
            { k.file f with off := (k.file f).off + min n CHUNK } := setFile_self ..
        obtain ⟨hk, hb⟩ := ih (by rw [hfile]; exact hdev) (by omega) h
        rw [htakes] at hk hb
        constructor
        · rw [hk, hfile]
          unfold Kernel.setFile
          dsimp only
          rw [Function.update_idem, if_pos rfl, Nat.add_assoc, Nat.add_sub_cancel' (min_le_left ..)]
          rfl
        · rw [hb]
          exact iff_of_false (fun h => by cases h.1) fun h => by cases h.1

/-- **What the write-back of a file does**: a record grows, where the bytes are not all there; or it leaves
the file as the condition says. -/
theorem filewrite_cases {f addr : ℕ} {b : Bool}
    (h : filewrite c f addr n ext (k.setFile f { k.file f with off := 0 }) = .ok (k', b)) :
    Grown c k k' ∧ ¬FileHarmless k c f addr n ext ∨
      k'.proc = k.proc ∧ k'.freelist = k.freelist ∧ (FilesSame k k' ↔ FileHarmless k c f addr n ext) ∧
        (b = false ↔ FileFails k f n ext) := by
  unfold filewrite at h
  rw [setFile_self] at h
  dsimp only at h
  unfold FileHarmless FileFails
  by_cases hwritable : (k.file f).writable = false
  · rw [if_pos hwritable] at h
    cases h
    rw [if_pos (.inl hwritable)]
    exact .inr ⟨rfl, rfl, filesSame_setFile_iff, iff_of_true rfl (.inl hwritable)⟩
  · rw [if_neg hwritable] at h
    split at h
    · rename_i hpipe
      cases h
      have hinode : (k.file f).type ≠ .FD_INODE := by
        rw [hpipe]
        decide
      rw [if_pos (.inr hpipe)]
      refine .inr ⟨rfl, rfl, filesSame_setFile_iff, ?_⟩
      rw [or_iff_right hwritable, and_iff_right hpipe]
      exact (or_iff_left fun h => hinode h.1).symm
    · rename_i hinode
      have hpipe : (k.file f).type ≠ .FD_PIPE := by
        rw [hinode]
        decide
      have hfails : ∀ {P Q : Prop}, (k.file f).writable = false ∨ (k.file f).type = .FD_PIPE ∧ P ∨
          (k.file f).type = .FD_INODE ∧ Q ↔ Q := by
        intro P Q
        rw [or_iff_right hwritable, or_iff_right fun h => hpipe h.1, and_iff_right hinode]
      rw [if_neg (not_or.mpr ⟨hwritable, hpipe⟩), hfails]
      cases hdev : (k.inode (k.file f).ip).isDev with
      | true =>
        have hdev' : ((k.setFile f { k.file f with off := 0 }).inode
            ((k.setFile f { k.file f with off := 0 }).file f).ip).isDev = true := by
          rw [setFile_self]
          exact hdev
        obtain ⟨rfl, hb⟩ := writeChunks_device hdev' le_rfl h
        rw [setFile_self]
        have hidem : (k.setFile f { k.file f with off := 0 }).setFile f
            { k.file f with off := 0 + if ext.takes then n else 0 } =
            k.setFile f { k.file f with off := if ext.takes then n else 0 } := by
          unfold Kernel.setFile
          dsimp only
          rw [Function.update_idem, Nat.zero_add]
        rw [hidem, if_pos rfl, if_pos rfl]
        exact .inr ⟨rfl, rfl, filesSame_setFile_iff, hb⟩
      | false =>
        have hdev' : ((k.setFile f { k.file f with off := 0 }).inode
            ((k.setFile f { k.file f with off := 0 }).file f).ip).isDev = false := by
          rw [setFile_self]
          exact hdev
        have hcases := writeChunks_cases hdev' (by rw [setFile_self]; exact Nat.zero_le _) le_rfl h
        rw [setFile_self] at hcases
        rw [if_neg Bool.false_ne_true, if_neg Bool.false_ne_true]
        obtain ⟨hgrown, habsent⟩ | ⟨m, hbacked, rfl, rfl, hreaches⟩ := hcases
        · exact .inl ⟨hgrown, fun ⟨m, hm, hbacked, _⟩ => habsent m hm hbacked⟩
        · refine .inr ⟨rfl, rfl, ?_, ?_⟩
          · rw [filesSame_wrote_iff, Kernel.length_bytesAt]
            constructor
            · exact fun hsame => ⟨m, hreaches, hbacked, hsame⟩
            · intro ⟨m', hreaches', _, hsame⟩
              rw [hreaches.unique hreaches']
              rw [← hreaches.unique hreaches'] at hsame ⊢
              exact hsame
          · rw [decide_eq_false_iff_not]
            unfold Reaches at hreaches
            dsimp only at hreaches
            omega
    · cases h

theorem writeMapping_cases {m : MapEntry} {b : Bool} (h : writeMapping c m va ext k = .ok (k', b)) :
    Grown c k k' ∧ ¬WriteHarmless k c m va ext ∨
      k'.proc = k.proc ∧ k'.freelist = k.freelist ∧ (FilesSame k k' ↔ WriteHarmless k c m va ext) ∧
        (b = false ↔ WriteFails k c m ext) := by
  unfold writeMapping at h
  unfold WriteHarmless WriteFails
  split at h
  · rename_i hback
    cases h
    have hfile : toFile m ≠ true := by
      unfold toFile
      rw [hback]
      decide
    refine .inr ⟨rfl, rfl, iff_of_true ⟨rfl, fun _ => rfl⟩ fun htrue => absurd htrue hfile, ?_⟩
    exact iff_of_false Bool.true_eq_false.mp fun h => hfile h.1
  · rename_i hback
    obtain ⟨f, hf, h₁⟩ := bind_eq_ok h
    have hfile : toFile m = true := by
      unfold toFile
      rw [Bool.eq_false_of_not_eq_true hback]
      rfl
    have hharmless : (toFile m = true → ∀ g, ofileAt (k.proc c) m.fd = .ok g →
        FileHarmless k c g (va * PGSIZE) (m.numPages * PGSIZE) ext) ↔
        FileHarmless k c f (va * PGSIZE) (m.numPages * PGSIZE) ext := by
      constructor
      · exact fun hall => hall hfile f hf
      · intro hone _ g hg
        rw [hf] at hg
        cases hg
        exact hone
    have hfails : (toFile m = true ∧ ∃ g, ofileAt (k.proc c) m.fd = .ok g ∧
        FileFails k g (m.numPages * PGSIZE) ext) ↔ FileFails k f (m.numPages * PGSIZE) ext := by
      constructor
      · intro ⟨_, g, hg, hfails⟩
        rw [hf] at hg
        cases hg
        exact hfails
      · exact fun hfails => ⟨hfile, f, hf, hfails⟩
    rw [hharmless, hfails]
    exact filewrite_cases h₁

/-! ### Clearing -/

/-- The page that clearing the entry at `va` frees, unless it is mapped somewhere. -/
def named (d : PgDir) (va : ℕ) : ℕ := (walkpgdir d va).join.getD 0

/-- The loop of `munmap` comes to page `va + j`. -/
def ComesTo (d : PgDir) (va j : ℕ) : Prop := ∀ i ≤ j, walkpgdir d (va + i) ≠ none

/-- Clearing changes nothing: no page on the way is present, and what is freed instead is mapped somewhere
or free already. -/
def ClearHarmless (k : Kernel) (c : Slot) (va n : ℕ) : Prop :=
  ∀ j < n, ComesTo (k.proc c).pgdir va j →
    (MMAPBASE ≤ va + j → va + j < KERNBASE → (k.proc c).pgdir.pte (va + j) = none) ∧
      (ispamapped (named (k.proc c).pgdir (va + j)) k ∨ named (k.proc c).pgdir (va + j) ∈ k.freelist)

/-- The same entries in the range of the mappings. -/
def SameRange (d d' : PgDir) : Prop :=
  ∀ x, MMAPBASE ≤ x → x < KERNBASE → d'.pte x = d.pte x

/-- Whether a page is mapped depends on the range of the mappings only. -/
theorem ispamapped_withDir {pa : ℕ} {fl : List ℕ} {mem : ℕ → Page} (h : SameRange (k.proc c).pgdir d) :
    ispamapped pa (k.withDir c d fl mem) ↔ ispamapped pa k := by
  unfold ispamapped
  refine exists_congr fun q => ?_
  by_cases hq : q = c
  · rw [hq, Kernel.withDir_self_proc]
    refine and_congr_right fun _ => exists_congr fun i => and_congr_right fun hi => ?_
    have hpte := h (MMAPBASE + i) (Nat.le_add_right ..) (by omega)
    rw [← hpte]
  · rw [Kernel.withDir_proc_of_ne k c d fl mem hq]

theorem comesTo_succ {j : ℕ} : ComesTo d va (j + 1) ↔ walkpgdir d va ≠ none ∧ ComesTo d (va + 1) j := by
  unfold ComesTo
  constructor
  · intro h
    refine ⟨h 0 (Nat.zero_le _), fun i hi => ?_⟩
    rw [Nat.add_assoc, Nat.add_comm 1 i]
    exact h (i + 1) (Nat.succ_le_succ hi)
  · intro ⟨hfirst, hrest⟩ i hi
    cases i with
    | zero => exact hfirst
    | succ i =>
      have hnext := hrest i (Nat.le_of_succ_le_succ hi)
      rwa [Nat.add_assoc, Nat.add_comm 1 i] at hnext

theorem comesTo_clear {x j : ℕ} (h : x < va) : ComesTo (d.clear x) va j ↔ ComesTo d va j := by
  refine forall₂_congr fun i _ => ?_
  rw [walkpgdir_clear (va + i) (by omega)]

/-- **What clearing absent pages frees.** -/
theorem clearPages_frees {b : Bool} (h : clearPages c va n k = .ok (k', b))
    (habsent : ∀ j < n, ComesTo (k.proc c).pgdir va j → MMAPBASE ≤ va + j → va + j < KERNBASE →
      (k.proc c).pgdir.pte (va + j) = none) :
    ∃ d fl mem, k' = k.withDir c d fl mem ∧ SameRange (k.proc c).pgdir d ∧
      d.table = (k.proc c).pgdir.table ∧
      ∀ x, x ∈ fl ↔ x ∈ k.freelist ∨ ∃ j < n, ComesTo (k.proc c).pgdir va j ∧
        named (k.proc c).pgdir (va + j) = x ∧ ¬ispamapped x k := by
  induction n generalizing va k with
  | zero =>
    cases h
    refine ⟨_, _, _, (Kernel.withDir_self ..).symm, fun _ _ _ => rfl, rfl, fun x => ?_⟩
    exact (or_iff_left fun ⟨j, hj, _⟩ => Nat.not_lt_zero j hj).symm
  | succ n ih =>
    obtain ⟨⟨k₁, b₁⟩, h₁, h₂⟩ := bind_eq_ok h
    dsimp only at h₂
    obtain ⟨rfl, rfl, hw⟩ | ⟨pte, fl, mem, rfl, hw, rfl, hfl⟩ := clearpte_ok h₁
    · cases h₂
      refine ⟨_, _, _, (Kernel.withDir_self ..).symm, fun _ _ _ => rfl, rfl, fun x => ?_⟩
      exact (or_iff_left fun ⟨j, _, hcomes, _⟩ => hcomes 0 (Nat.zero_le j) hw).symm
    · have hw' : walkpgdir (k.proc c).pgdir va ≠ none := by
        rw [hw]
        exact Option.some_ne_none pte
      have hcomes₀ : ComesTo (k.proc c).pgdir va 0 := by
        intro i hi
        rw [Nat.le_zero.mp hi]
        exact hw'
      have hsame : SameRange (k.proc c).pgdir ((k.proc c).pgdir.clear va) := by
        intro x hlo hhi
        by_cases hx : x = va
        · have hnone := habsent 0 (Nat.succ_pos n) hcomes₀ (hx ▸ hlo) (hx ▸ hhi)
          rw [hx]
          exact (Function.update_self ..).trans hnone.symm
        · exact Function.update_of_ne hx ..
      have hnamed : named (k.proc c).pgdir va = pte.getD 0 := by
        unfold named
        rw [hw]
        rfl
      have habsent₁ : ∀ j < n, ComesTo ((k.withDir c ((k.proc c).pgdir.clear va) fl mem).proc c).pgdir
          (va + 1) j → MMAPBASE ≤ va + 1 + j → va + 1 + j < KERNBASE →
          ((k.withDir c ((k.proc c).pgdir.clear va) fl mem).proc c).pgdir.pte (va + 1 + j) = none := by
        intro j hj hcomes hlo hhi
        rw [Kernel.withDir_self_proc] at hcomes ⊢
        rw [comesTo_clear (Nat.lt_succ_self va)] at hcomes
        rw [hsame _ hlo hhi, Nat.add_assoc, Nat.add_comm 1 j]
        rw [Nat.add_assoc, Nat.add_comm 1 j] at hlo hhi
        exact habsent (j + 1) (Nat.succ_lt_succ hj) (comesTo_succ.mpr ⟨hw', hcomes⟩) hlo hhi
      obtain ⟨d, fl', mem', rfl, hrange, htable, hmem⟩ := ih h₂ habsent₁
      rw [Kernel.withDir_self_proc] at hrange htable hmem
      refine ⟨d, fl', mem', Kernel.withDir_withDir .., ?_, htable, fun x => ?_⟩
      · exact fun x hlo hhi => (hrange x hlo hhi).trans (hsame x hlo hhi)
      have hfirst : x ∈ fl ↔ x ∈ k.freelist ∨ named (k.proc c).pgdir va = x ∧ ¬ispamapped x k := by
        rw [ispamapped_withDir hsame, ← hnamed] at hfl
        rcases hfl with ⟨rfl, -, hmapped⟩ | ⟨rfl, -, hfree⟩
        · refine (or_iff_left ?_).symm
          intro ⟨heq, hfree⟩
          rw [← heq] at hfree
          exact hfree hmapped
        · rw [List.mem_cons, or_comm, eq_comm]
          refine or_congr_right (and_iff_left_of_imp ?_).symm
          intro heq
          rw [← heq]
          exact hfree
      rw [hmem x, Kernel.withDir_freelist, hfirst, or_assoc]
      refine or_congr_right ?_
      constructor
      · intro hcase
        rcases hcase with hzero | ⟨j, hj, hcomes, heq, hfree⟩
        · exact ⟨0, Nat.succ_pos n, hcomes₀, hzero⟩
        · rw [comesTo_clear (Nat.lt_succ_self va)] at hcomes
          rw [ispamapped_withDir hsame] at hfree
          refine ⟨j + 1, Nat.succ_lt_succ hj, comesTo_succ.mpr ⟨hw', hcomes⟩, ?_, hfree⟩
          unfold named at heq ⊢
          rwa [walkpgdir_clear _ (by omega), Nat.add_assoc, Nat.add_comm 1 j] at heq
      · intro ⟨j, hj, hcomes, heq, hfree⟩
        cases j with
        | zero => exact .inl ⟨heq, hfree⟩
        | succ j =>
          refine .inr ⟨j, Nat.lt_of_succ_lt_succ hj, ?_, ?_, ?_⟩
          · rw [comesTo_clear (Nat.lt_succ_self va)]
            exact (comesTo_succ.mp hcomes).2
          · unfold named at heq ⊢
            rwa [walkpgdir_clear _ (by omega), Nat.add_assoc, Nat.add_comm 1 j]
          · rwa [ispamapped_withDir hsame]

/-- The loop of `munmap` that has stopped early has cleared every page it came to. -/
theorem clearPages_clears {b : Bool} (h : clearPages c va n k = .ok (k', b)) {j : ℕ} (hj : j < n)
    (hcomes : ComesTo (k.proc c).pgdir va j) : (k'.proc c).pgdir.pte (va + j) = none := by
  obtain ⟨m, hm, d, fl, mem, rfl, hcleared, -, ⟨-, rfl⟩ | ⟨-, hlt, hstop⟩⟩ := clearPages_ok h
  · rw [Kernel.withDir_self_proc]
    exact (hcleared.pte _).trans (if_pos ⟨Nat.le_add_right .., by omega⟩)
  · have hjm : j < m := by
      by_contra hle
      exact hcomes m (not_lt.mp hle) hstop
    rw [Kernel.withDir_self_proc]
    exact (hcleared.pte _).trans (if_pos ⟨Nat.le_add_right .., by omega⟩)

/-- **When clearing changes nothing**, after a write-back that has left the processes alone. -/
theorem clear_unchanged_iff {b : Bool} (hproc : k₁.proc = k.proc) (hfl : k₁.freelist = k.freelist)
    (h : clearPages c va n k₁ = .ok (k₂, b)) :
    Unchanged c k k₂ ↔ FilesSame k k₁ ∧ ClearHarmless k c va n := by
  have hmapped : ∀ {pa}, ispamapped pa k₁ ↔ ispamapped pa k := by
    intro pa
    unfold ispamapped
    rw [hproc]
  obtain ⟨m, -, d₀, fl₀, mem₀, hk₂, -⟩ := clearPages_ok h
  constructor
  · intro hsame
    have habsent : ∀ j < n, ComesTo (k.proc c).pgdir va j → MMAPBASE ≤ va + j → va + j < KERNBASE →
        (k.proc c).pgdir.pte (va + j) = none := by
      intro j hj hcomes hlo hhi
      rw [← hsame.pte _ hlo hhi]
      rw [← hproc] at hcomes
      exact clearPages_clears h hj hcomes
    rw [← hproc] at habsent
    obtain ⟨d, fl, mem, hk, -, -, hmem⟩ := clearPages_frees h habsent
    constructor
    · have hinode := hsame.inode
      have hoff := hsame.off
      rw [hk] at hinode hoff
      exact ⟨hinode, hoff⟩
    · intro j hj hcomes
      rw [← hproc] at hcomes ⊢
      refine ⟨habsent j hj hcomes, ?_⟩
      by_cases hfree : ispamapped (named (k₁.proc c).pgdir (va + j)) k
      · exact .inl hfree
      · refine .inr (hsame.freed _ ?_)
        rw [hk]
        exact (hmem _).mpr (.inr ⟨j, hj, hcomes, rfl, fun h => hfree (hmapped.mp h)⟩)
  · intro ⟨hfiles, hclear⟩
    have habsent : ∀ j < n, ComesTo (k₁.proc c).pgdir va j → MMAPBASE ≤ va + j → va + j < KERNBASE →
        (k₁.proc c).pgdir.pte (va + j) = none := by
      rw [hproc]
      exact fun j hj hcomes => (hclear j hj hcomes).1
    obtain ⟨d, fl, mem, rfl, hrange, -, hmem⟩ := clearPages_frees h habsent
    have hpgdir : ((k₁.withDir c d fl mem).proc c) = { k.proc c with pgdir := d } := by
      rw [Kernel.withDir_self_proc, hproc]
    constructor
    · intro x hx
      obtain hold | ⟨j, hj, hcomes, rfl, hfree⟩ := (hmem x).mp hx
      · rwa [hfl] at hold
      · rw [hmapped] at hfree
        rw [hproc] at hcomes hfree ⊢
        exact (hclear j hj hcomes).2.resolve_left hfree
    · intro x hx
      rw [← hfl] at hx
      exact .inl ((hmem x).mpr (.inl hx))
    · intro x hlo hhi
      rw [hpgdir, ← hproc]
      exact hrange x hlo hhi
    · intro i _
      rw [hpgdir]
    · rw [hpgdir]
    · exact hfiles.1
    · exact hfiles.2

/-! ### `munmap` -/

/-- **When a failed `munmap` changes nothing**: there is no record for the address, or the file is left as
it was, and the write-back fails or clearing changes nothing. -/
def MunmapHarmless (k : Kernel) (c : Slot) (virtualAddress length : ℤ) (ext : External) : Prop :=
  ∀ i, Found k c virtualAddress i →
    WriteHarmless k c ((k.proc c).mapEntries i) (pageOf virtualAddress) ext ∧
      (WriteFails k c ((k.proc c).mapEntries i) ext ∨
        ClearHarmless k c (pageOf virtualAddress) (munmapPages length))

theorem Found.unique {virtualAddress : ℤ} {i j : ℕ} (h : Found k c virtualAddress i)
    (h' : Found k c virtualAddress j) : j = i := by
  have heq := h'.found
  rw [h.found] at heq
  exact (Option.some.inj heq).symm

theorem munmapHarmless_iff {virtualAddress length : ℤ} {i : ℕ} (h : Found k c virtualAddress i) :
    MunmapHarmless k c virtualAddress length ext ↔
      WriteHarmless k c ((k.proc c).mapEntries i) (pageOf virtualAddress) ext ∧
        (WriteFails k c ((k.proc c).mapEntries i) ext ∨
          ClearHarmless k c (pageOf virtualAddress) (munmapPages length)) := by
  constructor
  · exact fun hall => hall i h
  · intro hone j hj
    rw [h.unique hj]
    exact hone

/-- **When a failed `munmap` changes nothing.** -/
theorem munmap_unchanged_iff {virtualAddress length : ℤ}
    (h : sys_munmap c virtualAddress length ext k = .ok (k', false)) :
    Unchanged c k k' ↔ MunmapHarmless k c virtualAddress length ext := by
  cases sys_munmap_exit h with
  | misaligned haligned =>
    exact iff_of_true (.refl c k) fun i hfound => absurd hfound.aligned haligned
  | unknown _ hnone =>
    refine iff_of_true (.refl c k) fun i hfound => ?_
    have hsome := hfound.found
    rw [hnone] at hsome
    cases hsome
  | write i _ hfound hwrite =>
    rw [munmapHarmless_iff hfound]
    obtain ⟨hgrown, hharm⟩ | ⟨hproc, hfl, hfiles, hfails⟩ := writeMapping_cases hwrite
    · exact iff_of_false hgrown.not_unchanged fun h => hharm h.1
    · rw [← hfiles, and_iff_left (.inl (hfails.mp rfl))]
      constructor
      · exact fun hsame => ⟨hsame.inode, hsame.off⟩
      · intro hsame
        have hpgdir : k'.proc c = k.proc c := congrFun hproc c
        refine ⟨?_, ?_, ?_, ?_, ?_, hsame.1, hsame.2⟩
        · rw [hfl]
          exact fun x hx => hx
        · rw [hfl]
          exact fun x hx => .inl hx
        · rw [hpgdir]
          exact fun _ _ _ => rfl
        · rw [hpgdir]
          exact fun _ _ => rfl
        · rw [hpgdir]
  | clear i k₁ _ hfound hwrite hclear =>
    rw [munmapHarmless_iff hfound]
    obtain ⟨hgrown, hharm⟩ | ⟨hproc, hfl, hfiles, hfails⟩ := writeMapping_cases hwrite
    · refine iff_of_false ?_ fun h => hharm h.1
      obtain ⟨m, -, d, fl, mem, rfl, -⟩ := clearPages_ok hclear
      apply Grown.not_unchanged
      unfold Grown
      rw [Kernel.withDir_self_proc]
      exact hgrown
    · have hno : ¬WriteFails k c ((k.proc c).mapEntries i) ext :=
        fun h => Bool.true_eq_false.mp (hfails.mpr h)
      rw [clear_unchanged_iff hproc hfl hclear, hfiles, or_iff_right hno]

/-- **When failed calls change nothing.** -/
theorem failures_unchanged_iff (k : Kernel) (c : Slot) (ext : External) :
    (∀ a k', sys_mmap c a ext k = .ok (k', none) → (Unchanged c k k' ↔ MmapHarmless k c a)) ∧
      ∀ virtualAddress length k', sys_munmap c virtualAddress length ext k = .ok (k', false) →
        (Unchanged c k k' ↔ MunmapHarmless k c virtualAddress length ext) :=
  ⟨fun _ _ h => mmap_unchanged_iff h, fun _ _ _ h => munmap_unchanged_iff h⟩

/-- One page is mapped, of a file that is open for reading only and stands at offset `7`; one page is free. -/
def readOnly : Kernel :=
  ((setOfile 0 0 (some 0) ((tabled fun x => if x = MMAPBASE then some 400 else none).setFile 0
    ⟨.FD_INODE, 1, true, false, 1, 7⟩)).withEntry 0 0 ⟨MAP_SHARED, MMAPBASE, 1, 0, true, 0⟩).modify 0
    fun p => { p with currentMappingIndex := 1 }

/-- The address is taken: the free page is lost. -/
theorem readOnly_mmap :
    sys_mmap 0 { anyPage MAP_FIXED with virtualAddress := 0x60000000 } ⟨none, false⟩ readOnly =
        .ok ({ readOnly with freelist := [] }, none) ∧
      ¬Unchanged 0 readOnly { readOnly with freelist := [] } := by
  refine ⟨rfl, fun h => ?_⟩
  have hfree := (unchanged_free_iff.mp h).2 500 List.mem_cons_self
  cases hfree

/-- The file cannot be written to: its offset is lost. -/
theorem readOnly_munmap :
    sys_munmap 0 0x60000000 4096 ⟨none, false⟩ readOnly =
        .ok (readOnly.setFile 0 { readOnly.file 0 with off := 0 }, false) ∧
      ¬Unchanged 0 readOnly (readOnly.setFile 0 { readOnly.file 0 with off := 0 }) := by
  refine ⟨rfl, fun h => ?_⟩
  have hoff := setFile_unchanged_iff.mp h
  cases hoff

/-- An invalid protection and an address that is not aligned change nothing, the two calls above do. -/
theorem failures_unchanged_refused :
    MmapHarmless readOnly 0 { anyPage 0 with prot := 0 } ∧
      ¬MmapHarmless readOnly 0 { anyPage MAP_FIXED with virtualAddress := 0x60000000 } ∧
      MunmapHarmless readOnly 0 1 4096 ⟨none, false⟩ ∧
      ¬MunmapHarmless readOnly 0 0x60000000 4096 ⟨none, false⟩ := by
  obtain ⟨hmmap, hmunmap⟩ := failures_unchanged_iff readOnly 0 ⟨none, false⟩
  refine ⟨(hmmap _ _ rfl).mp (.refl ..), ?_, (hmunmap _ _ _ rfl).mp (.refl ..), ?_⟩
  · exact fun h => readOnly_mmap.2 ((hmmap _ _ readOnly_mmap.1).mpr h)
  · exact fun h => readOnly_munmap.2 ((hmunmap _ _ _ readOnly_munmap.1).mpr h)

/-- A page is asked for at an address below the range: the call fails, and the page is gone. -/
theorem failed_mmap_loses_page :
    sys_mmap 0 (anyPage MAP_FIXED) ⟨none, false⟩ (tabled fun _ => none) =
        .ok ({ tabled (fun _ => none) with freelist := [] }, none) ∧
      ¬Unchanged 0 (tabled fun _ => none) { tabled (fun _ => none) with freelist := [] } := by
  refine ⟨rfl, fun h => ?_⟩
  obtain hfree | ⟨pdx, htable, -⟩ := h.taken 500 List.mem_cons_self
  · cases hfree
  · cases htable

end OperatingSystems.Vm
