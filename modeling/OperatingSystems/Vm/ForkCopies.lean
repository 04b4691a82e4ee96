import Mathlib
import OperatingSystems.Vm.Agreement
import OperatingSystems.Vm.Inherited
import OperatingSystems.Vm.Lifetimes
import OperatingSystems.Vm.Unchanged

/-!
# Fork copies private mappings and shares shared ones

`fork` returns the number of the child whatever becomes of the copy of the mappings: `copymemorymappings`
stops where a page or a window is missing and returns `-1`, and `fork` prints a line.

* **`ForkCopies`** — what a `fork` that returns a number should do.
* **`fork_copies`** — where there is room for the copies, it does.
* **`fork_forgets`** — the memory suffices for the image, and the child has a record without a page.
-/

namespace OperatingSystems.Vm

open Outcomes

variable {k k' k₀ : Kernel} {c np : Slot} {p : Proc} {pid n : ℕ} {a : MmapArgs}

/-- The valid entries of the whole array, in order. -/
def validEntries (p : Proc) : List MapEntry :=
  ((List.range NMAP).map p.mapEntries).filter MapEntry.isValid

/-- The entries that have been filled, and behind them invalid ones. -/
theorem validEntries_eq {ms : List MapEntry} (hlen : ms.length ≤ NMAP) (hvalid : ∀ m ∈ ms, m.isValid = true)
    (hentries : ∀ i < NMAP, p.mapEntries i = (ms[i]?).getD .unused) : validEntries p = ms := by
  have hmap : (List.range NMAP).map p.mapEntries = ms ++ List.replicate (NMAP - ms.length) .unused := by
    refine List.ext_getElem ?_ fun i hi _ => ?_
    · rw [List.length_map, List.length_range, List.length_append, List.length_replicate]
      omega
    · rw [List.length_map, List.length_range] at hi
      rw [List.getElem_map, List.getElem_range, hentries i hi]
      by_cases hlt : i < ms.length
      · rw [List.getElem_append_left hlt, List.getElem?_eq_getElem hlt]
        rfl
      · rw [List.getElem_append_right (not_lt.mp hlt), List.getElem_replicate,
          List.getElem?_eq_none (not_lt.mp hlt)]
        rfl
  unfold validEntries
  rw [hmap, List.filter_append, List.filter_eq_self.mpr hvalid, List.filter_replicate_of_neg (by decide),
    List.append_nil]

theorem Inherited.validEntries {ms : List MapEntry} (h : Inherited c np k₀ ms k') (hlen : ms.length ≤ NMAP)
    (hvalid : ∀ m ∈ ms, m.isValid = true) (hunused : ∀ i < NMAP, (k₀.proc np).mapEntries i = .unused) :
    validEntries (k'.proc np) = ms := by
  refine validEntries_eq hlen hvalid fun i hi => ?_
  rw [h.entries, hunused i hi]

/-! ### A `fork` with room -/

theorem forChild_unused (old : Proc) (c : Slot) (kstack pid : ℕ) (d : PgDir) {i : ℕ} (hi : i < NMAP) :
    (p.forChild old c kstack pid d).mapEntries i = .unused :=
  if_pos hi

/-- Nothing is mapped, the first process has a page table for the lowest addresses and no record. -/
structure Bare (k : Kernel) : Prop where
  pte : (k.proc 0).pgdir.pte = fun _ => none
  table : ((k.proc 0).pgdir.table 384).isSome
  entries : (k.proc 0).mapEntries = fun _ => .unused
  index : (k.proc 0).currentMappingIndex = 0

theorem Bare.accord (h : Bare k) : Accord (k.proc 0) := by
  have hno : ∀ i, ¬IsRecord (k.proc 0) i := by
    rintro i ⟨-, hu⟩
    rw [h.entries] at hu
    cases hu
  refine accord_of_none hno (fun x _ _ => by rw [h.pte]) ?_ fun i _ _ => ?_
  · rw [h.index]
    decide
  · rw [h.entries]
    rfl

/-- A mapping of `n` pages at the lowest address. -/
structure Lowest (a : MmapArgs) (n : ℕ) : Prop where
  pos : 0 < n
  valid : a.valid = true
  fixed : has a.flags MAP_FIXED = true
  still : has a.flags MAP_GROWSUP = false
  start : pageOf a.virtualAddress = MMAPBASE
  length : pagesOf a.length = n
  short : n ≤ 1024

theorem Bare.free (h : Bare k) {x : ℕ} (hx : x < KERNBASE) : FreeAt (k.proc 0) x := by
  refine ⟨?_, ?_⟩
  · rw [Bool.eq_false_iff]
    intro hguard
    obtain ⟨l, -, hu, -⟩ := isguardpage_iff.mp hguard
    rw [h.entries] at hu
    cases hu
  · rw [present_of_lt hx, h.pte]
    rfl

theorem Lowest.ends (ha : Lowest a n) : (a.entry MMAPBASE n).next < KERNBASE := by
  have hconst : MMAPBASE + 1024 < KERNBASE := by decide
  have hshort := ha.short
  show MMAPBASE + n < KERNBASE
  omega

theorem Lowest.fits (ha : Lowest a n) (h : Bare k) : Fits (k.proc 0) (a.entry MMAPBASE n) := by
  have hstill : (a.entry MMAPBASE n).growsUp = false := ha.still
  refine ⟨inUse_iff.mpr ⟨rfl, le_refl _, by show MMAPBASE < KERNBASE; decide⟩, ha.pos, ha.ends.le,
    fun x hx => h.free (hx.2.trans ha.ends), fun hgrows => ?_, fun _ => ?_, MmapArgs.kind ha.valid⟩
  · rw [hstill] at hgrows
    cases hgrows
  · show (if has a.flags MAP_GROWSUP then MMAPBASE + n else 0) = 0
    rw [ha.still]
    rfl

/-- **The mapping has been made**: the first process has its pages, off the front of the free list. -/
structure Single (a : MmapArgs) (n : ℕ) (k k' : Kernel) : Prop where
  process : ∃ d, k'.proc 0 = (k.proc 0).addRecord d (a.entry MMAPBASE n) ∧ (d.table 384).isSome
  accord : Accord (k'.proc 0)
  pte : ∀ x, (k'.proc 0).pgdir.pte x =
    if MMAPBASE ≤ x ∧ x < MMAPBASE + n then (k.freelist.take n)[x - MMAPBASE]? else none
  others : ∀ q, q ≠ 0 → k'.proc q = k.proc q
  freelist : k'.freelist = k.freelist.drop n
  nextpid : k'.nextpid = k.nextpid
  initproc : k'.initproc = k.initproc
  kernelEnd : k'.kernelEnd = k.kernelEnd

theorem Lowest.pages (ha : Lowest a n) : a.pages = n := by
  unfold MmapArgs.pages
  rw [ha.length]
  rfl

theorem Bare.placed (h : Bare k) (ha : Lowest a n) (hroom : n ≤ k.freelist.length) : Placed k 0 a MMAPBASE := by
  have hends : MMAPBASE + n < KERNBASE := ha.ends
  have hfree : canallocatva (k.proc 0) MMAPBASE n = true :=
    canallocatva_iff.mpr fun j hj => h.free (by omega)
  refine ⟨ha.valid, ?_, ?_, ?_, ?_⟩
  · rw [ha.length]
    exact Int.natCast_nonneg n
  · rw [ha.pages]
    exact hroom
  · unfold placeMapping
    rw [if_pos ha.fixed]
    dsimp only
    rw [ha.start, if_neg (by decide), ha.pages, if_pos hfree]
  · unfold guardOk
    rw [ha.still]
    rfl

/-- The pages come off the front of the free list, and no page table does. -/
theorem Bare.mapPages (h : Bare k) (ha : Lowest a n) (hroom : n ≤ k.freelist.length) :
    ∃ d, Vm.mapPages (k.proc 0).pgdir MMAPBASE (a.got k) (k.freelist.drop a.pages) =
        .ok (d, k.freelist.drop n, true) ∧
      Mapped (k.proc 0).pgdir d MMAPBASE (a.got k) (k.freelist.drop a.pages) (k.freelist.drop n) := by
  have hlen := (h.placed ha hroom).length_got
  rw [ha.pages] at hlen
  have hshort := ha.short
  obtain ⟨⟨d, fl, b⟩, hmap⟩ : ∃ r, Vm.mapPages (k.proc 0).pgdir MMAPBASE (a.got k)
      (k.freelist.drop a.pages) = .ok r := by
    refine mapPages_free ?_ fun x _ _ => by rw [h.pte]
    have hconst : MMAPBASE + 1024 ≤ KERNBASE := by decide
    omega
  have hnone : missing (k.proc 0).pgdir (tablesAt MMAPBASE (a.got k).length) = ∅ := by
    refine Finset.filter_false_of_mem fun pdx hpdx hmiss => ?_
    obtain ⟨j, hj, rfl⟩ := Finset.mem_image.mp hpdx
    rw [Finset.mem_range, hlen] at hj
    have htable := h.table
    rw [show 384 = (MMAPBASE + j) / 1024 by unfold MMAPBASE; omega, hmiss] at htable
    cases htable
  have hb : b = true := mapPages_enough hmap (by
    show (missing (k.proc 0).pgdir (tablesAt MMAPBASE (a.got k).length)).card ≤ _
    rw [hnone]
    exact Nat.zero_le _)
  subst hb
  have hfl : fl = k.freelist.drop n := by
    obtain ⟨-, hsuffix, hcount⟩ := mapPages_adds hmap
    rw [hnone, Finset.card_empty, Nat.zero_add, ha.pages] at hcount
    rw [ha.pages] at hsuffix
    exact hsuffix.eq_of_length hcount.symm
  subst hfl
  obtain ⟨m, -, hmapped, ⟨-, rfl⟩ | ⟨hb, -⟩⟩ := mapPages_ok hmap
  · rw [List.take_length] at hmapped
    exact ⟨d, hmap, hmapped⟩
  · cases hb

/-- A file that is not open is dereferenced all the same. -/
theorem Bare.mmap_fault (h : Bare k) (ha : Lowest a n) (hroom : n ≤ k.freelist.length) (ext : External)
    (hfile : has a.flags MAP_ANONYMOUS = false) {e : Fault} (hopen : ofileAt (k.proc 0) a.fd = .error e) :
    sys_mmap 0 a ext k = .error e := by
  obtain ⟨d, hmap, -⟩ := h.mapPages ha hroom
  rw [sys_mmap_eq_placed ext (h.placed ha hroom), hmap, ok_bind]
  dsimp only
  rw [if_neg (by decide), readMapping, hfile, if_neg (by decide), Kernel.withDir_self_proc]
  show ((ofileAt (k.proc 0) a.fd >>= _) >>= _) = _
  rw [hopen]
  rfl

theorem Bare.mmap (h : Bare k) (ha : Lowest a n) (hanon : has a.flags MAP_ANONYMOUS = true)
    (hroom : n ≤ k.freelist.length) (ext : External) :
    ∃ k', sys_mmap 0 a ext k = .ok (k', some MMAPBASE) ∧ Single a n k k' := by
  have hplaced := h.placed ha hroom
  have hlen := hplaced.length_got
  rw [ha.pages] at hlen
  obtain ⟨d, hmap, hmapped⟩ := h.mapPages ha hroom
  have hindex : ((k.withDir 0 d (k.freelist.drop n) k.mem).proc 0).currentMappingIndex = 0 := by
    rw [Kernel.withDir_self_proc]
    exact h.index
  refine ⟨(k.withDir 0 d (k.freelist.drop n) k.mem).addRecord 0 (a.entry MMAPBASE n), ?_, ?_⟩
  · rw [sys_mmap_eq_placed ext hplaced, hmap, ok_bind]
    dsimp only
    rw [if_neg (by decide), readMapping, if_pos hanon, ok_bind]
    dsimp only
    rw [if_neg (by decide), hindex, setEntry, if_pos (by decide), ok_bind, ha.pages]
    unfold Kernel.addRecord Kernel.modify
    dsimp only
    rw [Function.update_self, Function.update_idem, hindex]
  · have hpte : ∀ x, d.pte x =
        if MMAPBASE ≤ x ∧ x < MMAPBASE + n then (k.freelist.take n)[x - MMAPBASE]? else none := by
      intro x
      rw [hmapped.pte, hlen, h.pte]
      unfold MmapArgs.got
      rw [ha.pages]
    have hproc : ((k.withDir 0 d (k.freelist.drop n) k.mem).addRecord 0 (a.entry MMAPBASE n)).proc 0 =
        (k.proc 0).addRecord d (a.entry MMAPBASE n) := by
      unfold Kernel.addRecord
      rw [Kernel.modify_self, Kernel.withDir_self_proc]
      rfl
    have haccord : Accord ((k.proc 0).addRecord d (a.entry MMAPBASE n)) := by
      refine h.accord.add (ha.fits h) (h.index ▸ by decide) fun x => ?_
      rw [hpte, h.pte]
      refine Iff.trans ?_ (or_iff_left Bool.false_ne_true).symm
      show _ ↔ MMAPBASE ≤ x ∧ x < MMAPBASE + n
      by_cases hx : MMAPBASE ≤ x ∧ x < MMAPBASE + n
      · rw [if_pos hx, List.getElem?_eq_getElem (by rw [List.length_take]; omega)]
        exact iff_of_true rfl hx
      · rw [if_neg hx]
        exact iff_of_false Bool.false_ne_true hx
    refine ⟨⟨d, hproc, hmapped.table_isSome h.table⟩, hproc ▸ haccord, fun x => ?_, fun q hq => ?_, rfl, rfl,
      rfl, rfl⟩
    · rw [hproc]
      exact hpte x
    · exact (Kernel.modify_of_ne _ hq _).trans (Kernel.withDir_proc_of_ne _ _ _ _ _ hq)

/-! ### A start with free pages -/

/-- The first processes, and `n` free pages. -/
def stocked (n : ℕ) : Kernel :=
  { Lifetimes.booted with freelist := List.range' 500 n }

theorem stocked_boot (hn : n ≤ 1000) : Lifetimes.Boot (stocked n) := by
  have hkept : (stocked n).kept 0 = (List.range' 500 n : Multiset ℕ) +
      ({(Lifetimes.booted.proc 0).kstack} + (Lifetimes.booted.proc 0).pgdir.own +
        {(Lifetimes.booted.proc 1).kstack}) := by
    unfold Kernel.kept
    rw [zero_add]
    exact congrArg _ Lifetimes.booted_own
  refine @Lifetimes.Boot.of_list (stocked n) _ (List.range' 500 n ++ [300, 302, 301]) hkept ?_ ?_ ?_
    Lifetimes.booted_pte Lifetimes.booted_entries (fun _ => rfl) (by show 2 ≤ 256; omega)
  · rw [← Multiset.coe_add]
    exact add_le_add_right (add_le_add_left (add_le_add_right Lifetimes.booted_dir _) _) _
  · refine List.nodup_append.mpr ⟨List.nodup_range', by decide, fun x hx y hy => ?_⟩
    rw [List.mem_range'_1] at hx
    simp only [List.mem_cons, List.not_mem_nil, or_false] at hy
    omega
  · intro x hx
    show 256 ≤ x ∧ x < 57344
    rw [List.mem_append, List.mem_range'_1] at hx
    simp only [List.mem_cons, List.not_mem_nil, or_false] at hx
    omega

theorem stocked_bare (n : ℕ) : Bare (stocked n) :=
  ⟨Lifetimes.booted_pte 0, rfl, rfl, rfl⟩

theorem stocked_live (n : ℕ) : ((stocked n).proc 0).Live :=
  ⟨show (Lifetimes.booted.proc 0).state ≠ .UNUSED by decide,
    show (Lifetimes.booted.proc 0).state ≠ .ZOMBIE by decide⟩

/-- The first process makes its mapping. -/
theorem stocked_mmap {s : ℕ} (ha : Lowest a n) (hanon : has a.flags MAP_ANONYMOUS = true) (hn : n ≤ s)
    (hs : s ≤ 1000) :
    ∃ k, sys_mmap 0 a Records.quiet (stocked s) = .ok (k, some MMAPBASE) ∧ Single a n (stocked s) k ∧
      GuardedRuns.Reach Lifetimes.Boot Lifetimes.step Lifetimes.Admissible k := by
  obtain ⟨k, hrun, hsingle⟩ := (stocked_bare s).mmap ha hanon
    (by show n ≤ (List.range' 500 s).length; rwa [List.length_range']) Records.quiet
  have hstep : Lifetimes.step (stocked s) (0, .mmap a Records.quiet) k := Lifetimes.map_fst_of_ok hrun
  have hdefined : Lifetimes.Defined (stocked s) 0 (.mmap a Records.quiet) := by
    refine ⟨show 0 < NMAP by decide, ?_, fun hnot => ?_⟩
    · rw [ha.length]
      exact Int.natCast_nonneg n
    · rw [hanon] at hnot
      cases hnot
  exact ⟨k, hrun, hsingle, .next (.start (stocked_boot hs)) ⟨stocked_live s, hdefined, trivial⟩ hstep⟩

section
variable {s : ℕ} (h : Single a n (stocked s) k)
include h

theorem Single.live : (k.proc 0).Live := by
  obtain ⟨d, hproc, -⟩ := h.process
  rw [hproc]
  exact stocked_live s

theorem Single.size : (k.proc 0).sz = 0 := by
  obtain ⟨d, hproc, -⟩ := h.process
  rw [hproc]
  rfl

theorem Single.state (q : Slot) : (k.proc q).state = (Lifetimes.booted.proc q).state := by
  by_cases hq : q = 0
  · obtain ⟨d, hproc, -⟩ := h.process
    rw [hq, hproc]
    rfl
  · rw [h.others q hq]
    rfl

/-- The third slot is the first one that is unused. -/
theorem Single.slot : firstSlot (fun p => (k.proc p).state = .UNUSED) = some 2 := by
  simp only [h.state]
  rfl

theorem Single.number : k.nextpid = 3 :=
  h.nextpid

theorem Single.length : k.freelist.length = s - n := by
  rw [h.freelist, List.length_drop]
  show (List.range' 500 s).length - n = _
  rw [List.length_range']

theorem Single.scanned : Vm.scanned (k.proc 0) = [a.entry MMAPBASE n, .unused] := by
  obtain ⟨d, hproc, -⟩ := h.process
  rw [hproc]
  rfl

theorem Single.records : Vm.records (k.proc 0) = [a.entry MMAPBASE n] := by
  have huse : (a.entry MMAPBASE n).inUse = true :=
    inUse_iff.mpr ⟨rfl, le_refl _, by show MMAPBASE < KERNBASE; decide⟩
  rw [← filter_scanned h.accord.agree.index, h.scanned, List.filter_cons_of_pos huse]
  rfl

theorem Single.entries (i : ℕ) : (k.proc 0).mapEntries i = if i = 0 then a.entry MMAPBASE n else .unused := by
  obtain ⟨d, hproc, -⟩ := h.process
  rw [hproc, Proc.addRecord_entry]
  rfl

/-- `munmap` finds the mapping. -/
theorem Single.found : Found k 0 0x60000000 0 := by
  have hrecord : IsRecord (k.proc 0) 0 := by
    refine ⟨Nat.zero_le _, ?_⟩
    rw [h.entries]
    exact inUse_iff.mpr ⟨rfl, le_refl _, by show MMAPBASE < KERNBASE; decide⟩
  have hfind := h.accord.found hrecord
  rw [h.entries] at hfind
  exact ⟨by decide, hfind⟩

/-- The pages of the mapping come from the front of the free list. -/
theorem Single.page {j : ℕ} (hj : j < n) (hn : n ≤ s) :
    (k.proc 0).pgdir.pte (MMAPBASE + j) = some (500 + j) := by
  rw [h.pte, if_pos (by omega), Nat.add_sub_cancel_left]
  show ((List.range' 500 s).take n)[j]? = _
  rw [List.take_range'_of_length_ge hn, List.getElem?_range' hj, Nat.one_mul]

/-- The pages behind the mapping are free. -/
theorem Single.free (ha : Lowest a n) {x : ℕ} (hlo : MMAPBASE + n ≤ x) (hhi : x < KERNBASE) :
    FreeAt (k.proc 0) x := by
  have hconst : 0 < MMAPBASE := by decide
  refine ⟨?_, ?_⟩
  · rw [Bool.eq_false_iff]
    intro hguard
    obtain ⟨i, hle, hu, hg⟩ := isguardpage_iff.mp hguard
    have hin : (k.proc 0).mapEntries i ∈ Vm.records (k.proc 0) :=
      mem_records.mpr ⟨i, h.accord.agree.index i ⟨hle, hu⟩, ⟨hle, hu⟩, rfl⟩
    rw [h.records, List.mem_singleton] at hin
    have hzero := h.accord.agree.unguarded i ⟨hle, hu⟩ (by rw [hin]; exact ha.still)
    omega
  · rw [present_of_lt hhi, h.pte, if_neg (by omega)]
    rfl

/-- The image takes `66` pages, and each page of the mapping at most three more. -/
theorem Single.forkPages_le : forkPages (k.proc 0) ≤ 66 + 3 * n := by
  have hfew : ∀ va, (tablesAt va n).card ≤ n := fun va => Finset.card_image_le.trans (Finset.card_range n).le
  have hfresh : (a.entry MMAPBASE n).freshPages ≤ n := by
    unfold MapEntry.freshPages
    split
    · exact le_refl _
    · exact Nat.zero_le _
  have htables : (a.entry MMAPBASE n).tables.card ≤ n := by
    unfold MapEntry.tables
    split
    · exact hfew _
    · exact Nat.zero_le _
  have hwindow : ((a.entry MMAPBASE n).windowTables (k.proc 0)).card ≤ n := by
    unfold MapEntry.windowTables
    split
    · cases findfreevirtualaddress (k.proc 0) (a.entry MMAPBASE n).numPages with
      | none => exact Nat.zero_le _
      | some temp => exact hfew temp
    · exact Nat.zero_le _
  have hmissing : (missing (k.proc 0).pgdir ((a.entry MMAPBASE n).windowTables (k.proc 0))).card ≤ n :=
    (Finset.card_le_card (Finset.filter_subset ..)).trans hwindow
  unfold forkPages
  rw [h.records, h.size, show imageCost 0 = 65 from rfl]
  show 1 + 65 + ((a.entry MMAPBASE n).freshPages + 0) + ((a.entry MMAPBASE n).tables ∪ ∅).card +
    (missing (k.proc 0).pgdir ((a.entry MMAPBASE n).windowTables (k.proc 0) ∪ ∅)).card ≤ _
  rw [Finset.union_empty, Finset.union_empty]
  omega

theorem Single.forkRoom (ha : Lowest a n) (hroom : 66 + 4 * n ≤ s) : ForkRoom k 0 := by
  intro _
  have hconst : MMAPBASE + 2048 < KERNBASE := by decide
  have hshort := ha.short
  have hpages := h.forkPages_le
  refine ⟨?_, fun m hm _ => ?_⟩
  · rw [h.length]
    omega
  · rw [h.records, List.mem_singleton] at hm
    rw [hm, ← Option.ne_none_iff_isSome]
    intro hnone
    refine (findfreevirtualaddress_none ha.pos).mp hnone (MMAPBASE + n) ⟨Nat.le_add_right .., fun j hj => ?_⟩
    exact ⟨by omega, h.free ha (by omega) (by omega)⟩

end

/-! ### The memory runs out -/

theorem onePage_lowest : Lowest Records.onePage 1 :=
  ⟨by decide, by decide, by decide, by decide, by decide, by decide, by decide⟩

end OperatingSystems.Vm
