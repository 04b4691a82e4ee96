import Mathlib
import OperatingSystems.Vm.ForkCopies

/-!
# A page in use is not free

A page that some process maps in the range of the mappings is not on the free list, in runs of any processes.
`exit` and `munmap` look through all page tables before they free a page; `exec` frees its old image, and with
it every page that it maps, without a look.

* **`InUseNotFree`**, **`page_in_use_not_free`** — as long as a process that calls `exec` is the only one that
  maps its pages.
* **`exec_frees_shared`** — a child calls `exec`, and its parent's page is free.
-/

namespace OperatingSystems.Vm.Lifetimes

open Outcomes Custody GuardedRuns

variable {k k' k₁ k₂ : Kernel} {c : Slot} {va n : ℕ} {a : MmapArgs}

/-- **No page in use is free**: no page on the free list is mapped in the range, none is on it twice, and what
`kalloc` returns next is mapped nowhere. -/
structure InUseNotFree (k : Kernel) : Prop where
  free : ∀ x ∈ k.freelist, ∀ q, (k.proc q).state ≠ .UNUSED → ∀ va, MMAPBASE ≤ va → va < KERNBASE →
    (k.proc q).pgdir.pte va ≠ some x
  once : k.freelist.Nodup
  fresh : ∀ x fl, kalloc k.freelist = some (x, fl) → ¬ispamapped x k

theorem inUseNotFree_of_sound {hand : Multiset ℕ} (h : Sound hand k) : InUseNotFree k := by
  refine ⟨fun x hx q hq va hlo hhi hpte =>
      h.not_mapped (mem_kept_free hx) ⟨q, hq, mem_mapped_of_pte hlo hhi hpte⟩,
    h.free_nodup, fun x fl hkalloc => ?_⟩
  refine h.not_mapped (mem_kept_free ?_)
  cases hlist : k.freelist with
  | nil =>
    rw [hlist] at hkalloc
    cases hkalloc
  | cons y rest =>
    rw [hlist] at hkalloc
    cases hkalloc
    exact List.mem_cons_self

/-- **In every state reached**, no page in use is free. -/
theorem page_in_use_not_free (h : Reach Boot step Admissible k) : InUseNotFree k :=
  inUseNotFree_of_sound (sound_of_reach h)

/-! ### An `exec` that succeeds -/

/-- The pages of the image are there, and pages for their page tables. -/
theorem allocImage_done {d : PgDir} {contents : ℕ → Page} {oldsz newsz : ℕ} (hend : va + n ≤ KERNBASE)
    (hfresh : ∀ x, va ≤ x → x < va + n → d.pte x = none)
    (hroom : n + (missing d (tablesAt va n)).card ≤ k.freelist.length) :
    ∃ d' fl mem, allocImage d contents oldsz newsz va n k =
      .ok ({ k with freelist := fl, mem := mem }, d', true) := by
  induction n generalizing va d k with
  | zero => exact ⟨d, k.freelist, k.mem, rfl⟩
  | succ n ih =>
    rw [tablesAt_succ] at hroom
    cases hfl : k.freelist with
    | nil =>
      rw [hfl] at hroom
      exact absurd hroom (by rw [List.length_nil]; omega)
    | cons page rest =>
      rw [hfl, List.length_cons] at hroom
      have hone : (missing d {va / 1024}).card ≤ (missing d ({va / 1024} ∪ tablesAt (va + 1) n)).card :=
        missing_mono Finset.subset_union_left
      obtain ⟨d₁, fl₁, hrun, hd, hadds, hsuffix, hlen⟩ :=
        mappages_done page rest (by omega) (hfresh va (le_refl _) (by omega)) (by omega)
      rw [missing_union hadds] at hroom
      obtain ⟨d', fl, mem, hrest⟩ := @ih { k with
          freelist := fl₁, mem := Function.update k.mem page (contents va) } (va + 1) d₁ (by omega)
        (fun x hx hlt => by
          rw [hd, Function.update_of_ne (by omega)]
          exact hfresh x (by omega) (by omega))
        (by show n + _ ≤ fl₁.length
            omega)
      refine ⟨d', fl, mem, ?_⟩
      unfold allocImage
      rw [hfl]
      show (mappages d va page rest >>= _) = _
      rw [hrun, ok_bind]
      exact hrest

/-- The two pages of the stack, at the lowest addresses. -/
theorem allocuvm_stack (d : PgDir) (contents : ℕ → Page) (k : Kernel) :
    allocuvm d contents 0 (2 * PGSIZE) k = (allocImage d contents 0 (2 * PGSIZE) 0 2 k >>= fun r =>
      .ok (r.1, r.2.1, if r.2.2 then 2 * PGSIZE else 0)) := by
  unfold allocuvm
  rw [if_neg (by decide), if_neg (by decide), show imagePages 0 = 0 from rfl,
    show imagePages (2 * PGSIZE) - 0 = 2 from rfl]
  rfl

/-- **`exec` comes to its end** where there is memory for the stack and the old pages can be freed: they are
free afterwards. -/
theorem exec_returns (contents : ℕ → Page) (h : Sound 0 k) (huse : (k.proc c).state ≠ .UNUSED)
    (hrange : ∀ x ∈ (k.proc c).pgdir.mapped, k.Freeable x) (hroom : KVMPAGES + 4 ≤ k.freelist.length) :
    ∃ k', exec c ⟨[], contents, true⟩ k = .ok (k', true) ∧ (∀ q, q ≠ c → k'.proc q = k.proc q) ∧
      ∀ x ∈ (k.proc c).pgdir.mapped, x ∈ k'.freelist := by
  have hkvm : KVMPAGES ≤ k.freelist.length := (Nat.le_add_right ..).trans hroom
  obtain ⟨d₀, hsetup, hnone⟩ : ∃ d₀ : PgDir, setupkvm k =
      .ok ({ k with freelist := k.freelist.drop KVMPAGES }, some d₀) ∧ ∀ x, d₀.pte x = none := by
    refine ⟨⟨k.freelist.take KVMPAGES, fun _ => none, fun _ => none, empty_backed⟩, ?_, fun _ => rfl⟩
    unfold setupkvm
    rw [allocPages_of_le hkvm]
    rfl
  have hfew : (missing d₀ (tablesAt 0 2)).card ≤ 2 :=
    (Finset.card_le_card (Finset.filter_subset ..)).trans (Finset.card_image_le.trans (Finset.card_range 2).le)
  obtain ⟨d, fl, mem, himage⟩ :=
    @allocImage_done { k with freelist := k.freelist.drop KVMPAGES } 0 2 d₀ contents
    0 (2 * PGSIZE) (by decide) (fun x _ _ => hnone x) (by
      show _ ≤ (k.freelist.drop KVMPAGES).length
      rw [List.length_drop]
      omega)
  have hpages : ∀ x ∈ (k.proc c).pgdir.pages, k.Freeable x := by
    intro x hx
    have hmem : x ∈ ((k.proc c).pgdir.pages : Multiset ℕ) := hx
    rw [PgDir.coe_pages] at hmem
    rcases Multiset.mem_add.mp hmem with hown | hin
    · refine h.own_freeable (c := c) ?_
      rw [own_of_live huse]
      exact Multiset.mem_add.mpr (.inr hown)
    · exact hrange x (mem_rangePages.mp hin)
  obtain ⟨k', hfree⟩ := @kfreeAll_of_freeable (Kernel.modify { k with freelist := fl, mem := mem } c fun p =>
    { p with pgdir := d, sz := 2 * PGSIZE }) (k.proc c).pgdir.pages hpages
  obtain ⟨-, mem', hk'⟩ := kfreeAll_ok hfree
  refine ⟨k', ?_, fun q hq => ?_, fun x hx => ?_⟩
  · unfold exec
    rw [hsetup, ok_bind]
    dsimp only [loadSegments]
    rw [ok_bind]
    dsimp only
    rw [show imagePages 0 * PGSIZE = 0 from rfl, Nat.zero_add, allocuvm_stack, himage, ok_bind, ok_bind]
    dsimp only
    rw [if_pos rfl, if_neg (show ¬(decide (2 * PGSIZE = 0) || !true) = true by decide)]
    show (kfreeAll _ _ >>= _) = _
    rw [hfree]
    rfl
  · rw [hk']
    show Function.update k.proc c _ q = _
    exact Function.update_of_ne hq ..
  · have hmem : x ∈ ((k.proc c).pgdir.pages : Multiset ℕ) := by
      rw [PgDir.coe_pages]
      exact Multiset.mem_add.mpr (.inr (mem_rangePages.mpr hx))
    rw [hk']
    exact List.mem_append_left _ (List.mem_reverse.mpr (Multiset.mem_coe.mp hmem))

/-! ### Pages in common -/

/-- Where records and page table agree, `fork` finds the page tables of the mappings. -/
theorem copies_of_agree {p : Proc} (h : Agree p) : ∀ m ∈ scanned p, Copies p.pgdir m := by
  intro m hm huse _ _ j hj
  obtain ⟨i, hi, rfl⟩ := List.mem_map.mp hm
  have hrecord : IsRecord p i := ⟨Nat.lt_succ_iff.mp (List.mem_range.mp hi), huse⟩
  have hlo := (inUse_iff.mp huse).2.1
  have hends : (p.mapEntries i).startingVirtualAddress + (p.mapEntries i).numPages ≤ KERNBASE :=
    h.within i hrecord
  have hcovers : (p.mapEntries i).Covers ((p.mapEntries i).startingVirtualAddress + j) :=
    ⟨Nat.le_add_right .., Nat.add_lt_add_left hj _⟩
  obtain ⟨pa, hpa⟩ := Option.isSome_iff_exists.mp
    ((h.present _ (hlo.trans hcovers.1) (hcovers.2.trans_le hends)).mpr ⟨i, hrecord, hcovers⟩)
  rw [walkpgdir_of_pte (hcovers.2.trans_le hends) hpa]
  exact Option.some_ne_none _

/-- A shared mapping of `n` pages at the lowest address. -/
def commonPages (n : ℕ) : MmapArgs where
  virtualAddress := 0x60000000
  length := n * 4096
  prot := 3
  flags := MAP_SHARED ||| MAP_ANONYMOUS ||| MAP_FIXED
  fd := 0
  offset := 0

theorem commonPages_lowest : Lowest (commonPages 2) 2 :=
  ⟨by decide, by decide, by decide, by decide, by decide, by decide, by decide⟩

/-- **The first process and its child in slot `2` have two pages in common.** -/
structure Common (k : Kernel) : Prop where
  reach : Reach Boot step Admissible k
  live : (k.proc 0).Live ∧ (k.proc 2).Live
  accord : Accord (k.proc 0) ∧ Accord (k.proc 2)
  entry : IsRecord (k.proc 2) 0 ∧ (k.proc 2).mapEntries 0 = (commonPages 2).entry MMAPBASE 2
  parent : ∀ j < 2, (k.proc 0).pgdir.pte (MMAPBASE + j) = some (500 + j)
  child : ∀ x, (k.proc 2).pgdir.pte x = if MMAPBASE ≤ x ∧ x < MMAPBASE + 2 then (k.proc 0).pgdir.pte x else none
  kernelEnd : k.kernelEnd = 256
  initproc : k.initproc = 1
  room : KVMPAGES + 4 ≤ k.freelist.length

/-- The first process maps the pages and calls `fork`. -/
theorem common_fork : ∃ k₁ k₂,
    sys_mmap 0 (commonPages 2) Records.quiet (stocked 150) = .ok (k₁, some MMAPBASE) ∧
    Single (commonPages 2) 2 (stocked 150) k₁ ∧ fork 0 k₁ = .ok (k₂, some (2, 3)) ∧ Common k₂ := by
  obtain ⟨k, hmmap, hsingle, hreach⟩ := stocked_mmap (s := 150) commonPages_lowest (by decide) (by decide)
    (by decide)
  have hapart := (sound_of_reach hreach).freeApart hsingle.live.1
  have hlen := hsingle.length
  have hpages := hsingle.forkPages_le
  obtain ⟨k₀, k', hrun, hforked, hall, htaken⟩ := fork_returns hapart hsingle.live hsingle.accord.agree.mappings
    (hsingle.forkRoom commonPages_lowest (by decide)) hsingle.size hsingle.slot (by rw [hlen]; decide)
  rw [hsingle.number] at hrun hforked
  have hstep : step k (0, .fork) k' := map_fst_of_ok hrun
  have hdefined : Defined k 0 .fork := ⟨hsingle.accord.index, copies_of_agree hsingle.accord.agree⟩
  have hparent : k₀.proc 0 = k.proc 0 := hforked.others 0 (by decide)
  obtain ⟨e, hproc, hpte⟩ := hall.parent
  obtain ⟨kstack, d₀, hforChild, hnone⟩ := hforked.child
  rw [hparent] at hproc hpte
  have hmem : (commonPages 2).entry MMAPBASE 2 ∈ records (k.proc 0) := by
    rw [hsingle.records]
    exact List.mem_cons_self
  have hentry : (k'.proc 2).mapEntries 0 = (commonPages 2).entry MMAPBASE 2 := by
    rw [hall.entries, hsingle.records]
    rfl
  have hpte' : (k'.proc 0).pgdir.pte = (k.proc 0).pgdir.pte := by
    rw [hproc]
    exact hpte
  refine ⟨k, k', hmmap, hsingle, hrun, .next hreach ⟨hsingle.live, hdefined, trivial⟩ hstep, ⟨?_, ?_⟩, ⟨?_, ?_⟩,
    ⟨⟨Nat.zero_le _, ?_⟩, hentry⟩, fun j hj => ?_, fun x => ?_, ?_, ?_, ?_⟩
  · rw [hproc]
    exact hsingle.live
  · exact hforked.child_live hall
  · refine hsingle.accord.congr ?_ ?_ fun x _ _ => congrFun hpte' x
    · rw [hproc]
    · rw [hproc]
  · exact hall.accord hforked (by decide) hsingle.accord.settled hapart.below
  · rw [hentry]
    exact inUse_iff.mpr ⟨rfl, le_refl _, by show MMAPBASE < KERNBASE; decide⟩
  · rw [hpte', hsingle.page hj (by decide)]
  · rw [hpte']
    by_cases hx : MMAPBASE ≤ x ∧ x < MMAPBASE + 2
    · rw [if_pos hx, hall.shared _ hmem (by decide) (by decide) x hx, hparent]
    · rw [if_neg hx, hall.outside x fun m hm => ?_, hforChild]
      · exact hnone x (by rw [hsingle.size]; exact Nat.zero_le _)
      · rw [hsingle.records, List.mem_singleton] at hm
        rw [hm]
        exact hx
  · obtain ⟨fl, mem, proc, hk'⟩ := hall.rest
    rw [hk']
    exact hforked.kernelEnd.trans hsingle.kernelEnd
  · obtain ⟨fl, mem, proc, hk'⟩ := hall.rest
    rw [hk']
    exact hforked.initproc.trans hsingle.initproc
  · have hconst : KVMPAGES = 65 := rfl
    omega

theorem Common.mapped (h : Common k) {x : ℕ} (hx : x ∈ (k.proc 2).pgdir.mapped) : k.Freeable x := by
  obtain ⟨i, -, hpte⟩ := hx
  rw [h.child] at hpte
  split at hpte
  · rw [h.parent i (by omega)] at hpte
    cases hpte
    show k.kernelEnd ≤ 500 + i ∧ 500 + i < 57344
    rw [h.kernelEnd]
    omega
  · cases hpte

/-- **The child unmaps both pages.** -/
theorem Common.munmap (h : Common k) : Found k 2 0x60000000 0 ∧ munmapPages 8192 = 2 ∧
    ∃ k', sys_munmap 2 0x60000000 8192 Records.quiet k = .ok (k', true) ∧ k'.initproc = k.initproc ∧
      k'.proc 0 = k.proc 0 ∧ (k'.proc 2).Live ∧ (∀ x, (k'.proc 2).pgdir.pte x = none) ∧
      k.freelist <:+ k'.freelist := by
  have hn : munmapPages 8192 = 2 := by decide
  have hends : pageOf 0x60000000 + munmapPages 8192 ≤ KERNBASE := by decide
  have hfound : Found k 2 0x60000000 0 := by
    refine ⟨by decide, ?_⟩
    have hfind := h.accord.2.found h.entry.1
    rw [h.entry.2] at hfind
    exact hfind
  have hwritten : writeMapping 2 ((k.proc 2).mapEntries 0) (pageOf 0x60000000) Records.quiet k =
      .ok (k, true) := by
    rw [h.entry.2]
    exact if_pos (by decide)
  obtain ⟨k₂, hclear, hmunmap⟩ := sys_munmap_succeeds hfound hwritten hends (by
    intro j hj
    have hpage := h.parent j (hn ▸ hj)
    have hpte : (k.proc 2).pgdir.pte (MMAPBASE + j) = some (500 + j) := by
      rw [h.child, if_pos (by omega), hpage]
    have hlt : MMAPBASE + j < KERNBASE := by
      have hconst : MMAPBASE + 2 < KERNBASE := by decide
      omega
    exact ⟨_, hpte, h.mapped (mem_mapped_of_pte (Nat.le_add_right ..) hlt hpte)⟩)
  obtain ⟨m, -, d, fl, mem, rfl, hcleared, hsuffix, ⟨-, rfl⟩ | ⟨hb, -⟩⟩ := clearPages_ok hclear
  · have hproc : ((k.withDir 2 d fl mem).withEntry 2 0 .unused).proc 2 = (k.proc 2).dropRecord 0 d := by
      rw [Kernel.withEntry, Kernel.modify_self, Kernel.withDir_self_proc]
      rfl
    refine ⟨hfound, hn, _, hmunmap, rfl, ?_, ?_, fun x => ?_, hsuffix⟩
    · rw [Kernel.withEntry, Kernel.modify_of_ne _ (by decide), Kernel.withDir_proc_of_ne _ _ _ _ _ (by decide)]
    · rw [hproc]
      exact h.live.2
    · rw [hproc]
      show d.pte x = none
      rw [hcleared.pte, h.child, show pageOf 0x60000000 = MMAPBASE by decide, hn]
      split
      · rfl
      · rfl
  · cases hb

/-- `exec` of the child frees the pages, and its parent goes on to map them. -/
theorem exec_frees_shared : ∃ k₁ k₂ k₃, Boot (stocked 150) ∧
    sys_mmap 0 (commonPages 2) Records.quiet (stocked 150) = .ok (k₁, some MMAPBASE) ∧
    fork 0 k₁ = .ok (k₂, some (2, 3)) ∧ exec 2 ⟨[], fun _ _ => 0, true⟩ k₂ = .ok (k₃, true) ∧
    500 ∈ k₃.freelist ∧ (k₃.proc 0).pgdir.pte MMAPBASE = some 500 ∧ ¬InUseNotFree k₃ := by
  obtain ⟨k₁, k₂, hmmap, -, hfork, hcommon⟩ := common_fork
  obtain ⟨k₃, hexec, hothers, hfreed⟩ := exec_returns (fun _ _ => 0) (sound_of_reach hcommon.reach)
    hcommon.live.2.1 (fun x hx => hcommon.mapped hx) hcommon.room
  have hparent : k₃.proc 0 = k₂.proc 0 := hothers 0 (by decide)
  have hpage := hcommon.parent 0 (by decide)
  have hfree : 500 ∈ k₃.freelist := by
    refine hfreed 500 (mem_mapped_of_pte (le_refl MMAPBASE) (by decide) ?_)
    rw [hcommon.child, if_pos (by decide)]
    exact hpage
  rw [← hparent] at hpage
  refine ⟨k₁, k₂, k₃, stocked_boot (by decide), hmmap, hfork, hexec, hfree, hpage, fun hgood => ?_⟩
  exact hgood.free 500 hfree 0 (hparent ▸ hcommon.live.1.1) MMAPBASE (le_refl _) (by decide) hpage

/-- The child gives its pages up before it calls `exec`. -/
theorem page_in_use_not_free_shared : ∃ k, Reach Boot step Admissible k ∧
    (k.proc 0).pgdir.pte MMAPBASE = some 500 ∧ InUseNotFree k := by
  obtain ⟨k₁, k, -, -, -, hcommon⟩ := common_fork
  obtain ⟨hfound, -, k₂, hmunmap, -, hother, hlive, hpte, hsuffix⟩ := hcommon.munmap
  have hdefined : Defined k 2 (.munmap 0x60000000 8192 Records.quiet) := by
    refine ⟨hcommon.accord.2.index, fun i hi hnot => ?_⟩
    rw [hfound.found] at hi
    cases hi
    rw [hcommon.entry.2] at hnot
    cases hnot
  have hstep : step k (2, .munmap 0x60000000 8192 Records.quiet) k₂ := map_fst_of_ok hmunmap
  have hreach := hcommon.reach.next ⟨hcommon.live.2, hdefined, trivial⟩ hstep
  have hnone : ∀ x, x ∉ (k₂.proc 2).pgdir.mapped := by
    rintro x ⟨i, -, hx⟩
    rw [hpte] at hx
    cases hx
  obtain ⟨k₃, hexec, hothers, -⟩ := exec_returns (fun _ _ => 0) (sound_of_reach hreach) hlive.1
    (fun x hx => absurd hx (hnone x)) (hcommon.room.trans hsuffix.length_le)
  have hexecStep : step k₂ (2, .exec ⟨[], fun _ _ => 0, true⟩) k₃ := map_fst_of_ok hexec
  have hadmissible : Admissible k₂ (2, .exec ⟨[], fun _ _ => 0, true⟩) :=
    ⟨hlive, trivial, fun x hx => absurd hx (hnone x)⟩
  have hend := hreach.next hadmissible hexecStep
  refine ⟨k₃, hend, ?_, page_in_use_not_free hend⟩
  rw [hothers 0 (by decide), hother]
  exact hcommon.parent 0 (by decide)

end OperatingSystems.Vm.Lifetimes
