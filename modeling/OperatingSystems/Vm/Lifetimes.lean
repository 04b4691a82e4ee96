import Mathlib
import OperatingSystems.Lib.GuardedRuns
import OperatingSystems.Vm.Defined
import OperatingSystems.Vm.Records

/-!
# Pages over the life of processes

Runs of the calls that have to do with pages, made by any processes in any order.  The calls come one after
another, each run to its end: `clearpte`, `ispamapped` and the page tables are under no lock, so that two
calls beside each other, on two processors or by preemption, are not covered.

* **`Admissible`** — a call that C defines, of a process that keeps its image below the mappings.
* **`pages_owned_once`** — in every state reached, no page has two owners, no page with an owner is mapped
  in the range of the mappings, and no free page is in use.
* **`death_gives_back`** — a process that exits and is waited for gives back all pages that it owned, and of
  those that it mapped the ones that no other process maps.
-/

namespace OperatingSystems.Vm.Lifetimes

open Outcomes Custody GuardedRuns

variable {k k' k₁ k₂ : Kernel} {c : Slot} {va : ℕ} {hand : Multiset ℕ}

/-! ### Calls -/

/-- The calls that have to do with pages, and the page fault. -/
inductive Call
  | mmap (a : MmapArgs) (ext : External)
  | munmap (virtualAddress length : ℤ) (ext : External)
  | sbrk (n : ℤ)
  | fork
  | exec (program : Program)
  | exit
  | wait
  | fault (va : ℕ)

def next (k : Kernel) : Slot × Call → Except Fault Kernel
  | (c, .mmap a ext) => (sys_mmap c a ext k).map Prod.fst
  | (c, .munmap virtualAddress length ext) => (sys_munmap c virtualAddress length ext k).map Prod.fst
  | (c, .sbrk n) => (growproc c n k).map Prod.fst
  | (c, .fork) => (fork c k).map Prod.fst
  | (c, .exec program) => (exec c program k).map Prod.fst
  | (c, .exit) => exit c k
  | (c, .wait) => (wait c k).map Prod.fst
  | (c, .fault va) => pagefault c va k

def step (k : Kernel) (call : Slot × Call) (k' : Kernel) : Prop :=
  next k call = .ok k'

/-- **The call does nothing that C leaves undefined.**  The scanners stay in the array of the records, the
length of an array is not negative, the file of a mapping is open, and a mapping that `fork` shares has page
tables; it has none after an `exec`, which keeps the records. -/
def Defined (k : Kernel) (c : Slot) : Call → Prop
  | .mmap a _ => Scans (k.proc c) ∧ 0 ≤ pagesOf a.length ∧
      (has a.flags MAP_ANONYMOUS = false → Opens (k.proc c) a.fd)
  | .munmap virtualAddress _ _ => Scans (k.proc c) ∧
      ∀ i, findmappingmetadata (k.proc c) (pageOf virtualAddress) = some i →
        has ((k.proc c).mapEntries i).flags MAP_ANONYMOUS = false →
        has ((k.proc c).mapEntries i).flags MAP_PRIVATE = false →
        Opens (k.proc c) ((k.proc c).mapEntries i).fd
  | .fork => Scans (k.proc c) ∧ ∀ m ∈ scanned (k.proc c), Copies (k.proc c).pgdir m
  | .fault _ => Scans (k.proc c)
  | _ => True

/-- The process is there, the call is defined, an `sbrk` keeps the image below the mappings, and the process does
not `exec` while another one maps a page that it maps. -/
def Admissible (k : Kernel) (call : Slot × Call) : Prop :=
  (k.proc call.1).Live ∧ Defined k call.1 call.2 ∧
    match call.2 with
    | .sbrk n => SbrkBelow (k.proc call.1) n
    | .exec _ => OnlyMapper k call.1
    | _ => True

/-- **Before the first call**, as `userinit` leaves the first process: nothing is mapped, no page has two
owners, and a record is unused or, as in the process table at the start, all zero. -/
structure Boot (k : Kernel) : Prop where
  custody : (k.kept 0).Nodup
  freeable : ∀ x ∈ k.kept 0, k.Freeable x
  unmapped : ∀ q, (k.proc q).state ≠ .UNUSED → ∀ x, x ∉ (k.proc q).pgdir.mapped
  entries : ∀ q, (k.proc q).state ≠ .UNUSED → ∀ i < NMAP, ((k.proc q).mapEntries i).isValid = true →
    ((k.proc q).mapEntries i).startingVirtualAddress = 0
  size : ∀ q, (k.proc q).state ≠ .UNUSED → (k.proc q).sz ≤ MMAPBASE * PGSIZE
  image : 2 ≤ k.kernelEnd

theorem Boot.sound (h : Boot k) : Sound 0 k := by
  have hnone : ∀ x, ¬ispamapped x k := fun x ⟨q, hq, hin⟩ => h.unmapped q hq x hin
  refine ⟨⟨h.custody, fun x _ => hnone x⟩, h.freeable, fun q hq => ⟨?_, ?_, ?_, ?_, h.size q hq⟩, h.image⟩
  · intro i hi j hj x hpi
    exact absurd ⟨i, hi, hpi⟩ (h.unmapped q hq x)
  · exact fun x hx => absurd hx (h.unmapped q hq x)
  · exact fun _ => h.unmapped q hq
  · intro i hi hv
    rw [h.entries q hq i hi hv]
    decide

theorem map_fst_of_ok {α β : Type} {x : Except Fault (α × β)} {a : α} {b : β} (h : x = .ok (a, b)) :
    x.map Prod.fst = .ok a := by
  rw [h]
  rfl

theorem map_fst_ok {α β : Type} {x : Except Fault (α × β)} {a : α} (h : x.map Prod.fst = .ok a) :
    ∃ b, x = .ok (a, b) := by
  cases x with
  | error e => cases h
  | ok r =>
    cases h
    exact ⟨r.2, rfl⟩

/-- **One call keeps it.** -/
theorem sound_step {call : Slot × Call} (h : Sound 0 k) (hok : Admissible k call)
    (hstep : step k call k') : Sound 0 k' := by
  obtain ⟨c, call⟩ := call
  obtain ⟨hlive, -, hcond⟩ := hok
  cases call with
  | mmap a ext =>
    obtain ⟨r, hrun⟩ := map_fst_ok hstep
    exact h.mmap hlive hrun
  | munmap virtualAddress length ext =>
    obtain ⟨r, hrun⟩ := map_fst_ok hstep
    exact h.munmap hlive hrun
  | sbrk n =>
    obtain ⟨r, hrun⟩ := map_fst_ok hstep
    exact h.growproc hlive hcond hrun
  | fork =>
    obtain ⟨r, hrun⟩ := map_fst_ok hstep
    exact h.fork hlive hrun
  | exec program =>
    obtain ⟨r, hrun⟩ := map_fst_ok hstep
    exact h.exec hlive hcond hrun
  | exit => exact h.exit hlive hstep
  | wait =>
    obtain ⟨r, hrun⟩ := map_fst_ok hstep
    exact h.wait hrun
  | fault va => exact h.pagefault hlive hstep

theorem sound_of_reach (h : Reach Boot step Admissible k) : Sound 0 k :=
  h.invariant (fun _ hboot => hboot.sound) fun _ _ _ hs hok hstep => sound_step hs hok hstep

/-- **A call of the guard comes to its end, or the kernel panics.** -/
theorem Admissible.panics {call : Slot × Call} (h : Admissible k call) : Fails Panic (next k call) := by
  obtain ⟨c, call⟩ := call
  obtain ⟨hlive, hdefined, -⟩ := h
  cases call with
  | mmap a ext => exact (sys_mmap_panics hdefined.1 hdefined.2.1 hdefined.2.2).map _
  | munmap virtualAddress length ext => exact (sys_munmap_panics hdefined.1 hdefined.2).map _
  | sbrk n => exact growproc_panics.map _
  | fork => exact (fork_panics hlive hdefined.1 hdefined.2).map _
  | exec program => exact exec_panics.map _
  | exit => exact exit_panics
  | wait => exact wait_panics.map _
  | fault va => exact pagefault_panics hdefined

/-- **No page has two owners** in any state reached, and none with an owner is mapped in the range of the
mappings; within one process a page is mapped at one place.  The next call of the guard comes to its end, or
the kernel panics. -/
theorem pages_owned_once (h : Reach Boot step Admissible k) :
    Exclusive (k.kept 0) {x | ispamapped x k} ∧
      (∀ q, (k.proc q).state ≠ .UNUSED → ∀ va va' x, MMAPBASE ≤ va → va < KERNBASE → MMAPBASE ≤ va' →
        va' < KERNBASE → (k.proc q).pgdir.pte va = some x → (k.proc q).pgdir.pte va' = some x →
        k.Freeable x → va = va') ∧
      ∀ call, Admissible k call → Fails Panic (next k call) := by
  have hsound := sound_of_reach h
  refine ⟨hsound.custody, fun q hq va va' x hlo hhi hlo' hhi' hpte hpte' hfree => ?_,
    fun call hok => hok.panics⟩
  have honce := (hsound.tidy q hq).once (va - MMAPBASE) (by omega) (va' - MMAPBASE) (by omega) x
  rw [Nat.add_sub_cancel' hlo, Nat.add_sub_cancel' hlo'] at honce
  have heq := honce hpte hpte' hfree
  omega

/-- The process in slot `1` is `init`, with records that are all zero, the one in slot `0` its child, and a
page is free. -/
def booted : Kernel where
  freelist := [500]
  mem := fun _ _ => 0
  proc := fun q =>
    { sz := 0
      pgdir := if q = 0 then PgDir.empty.addTable 384 302 else .empty
      kstack := 300 + q
      state := if q ≤ 1 then .RUNNING else .UNUSED
      pid := 2 - q
      parent := if q = 0 then some 1 else none
      ofile := fun _ => none
      mapEntries := fun _ => if q = 1 then ⟨0, 0, 0, 0, true, 0⟩ else .unused
      currentMappingIndex := 0 }
  file := fun _ => ⟨.FD_NONE, 0, false, false, 0, 0⟩
  inode := fun _ => ⟨false, 0, fun _ => 0⟩
  nextpid := 3
  initproc := 1
  kernelEnd := 256

theorem booted_pte (q : Slot) : (booted.proc q).pgdir.pte = fun _ => none := by
  show PgDir.pte (if q = 0 then PgDir.empty.addTable 384 302 else .empty) = _
  split <;> rfl

theorem booted_dir : (booted.proc 0).pgdir.own ≤ (([302] : List ℕ) : Multiset ℕ) := by
  have htable : holdings (List.range (KERNBASE / 1024)) (Function.update (fun _ => none) 384 (some 302)) ≤
      302 ::ₘ holdings (List.range (KERNBASE / 1024)) fun _ => none :=
    holdings_fill_le List.nodup_range rfl
  have hempty := own_empty
  unfold PgDir.own PgDir.empty at hempty
  rw [Multiset.coe_nil, add_zero] at hempty
  show holdings (List.range MMAPBASE) (fun _ => none) +
    holdings (List.range (KERNBASE / 1024)) (Function.update (fun _ => none) 384 (some 302)) + 0 ≤ _
  calc _ ≤ holdings (List.range MMAPBASE) (fun _ => none) +
        (302 ::ₘ holdings (List.range (KERNBASE / 1024)) fun _ => none) + 0 :=
        add_le_add_left (add_le_add_right htable _) _
    _ = ([302] : List ℕ) := by
        rw [Multiset.add_cons, hempty]
        rfl

theorem booted_own : ∑ q, (booted.proc q).own =
    {(booted.proc 0).kstack} + (booted.proc 0).pgdir.own + {(booted.proc 1).kstack} := by
  have hown : ∀ q, (booted.proc q).own =
      (if q = 0 then (booted.proc 0).own else 0) + if q = 1 then (booted.proc 1).own else 0 := by
    intro q
    by_cases h0 : q = 0
    · rw [h0, if_pos rfl, if_neg (by decide), add_zero]
    · rw [if_neg h0, zero_add]
      by_cases h1 : q = 1
      · rw [h1, if_pos rfl]
      · rw [if_neg h1]
        have hgt : ¬q ≤ 1 := by
          intro hle
          rcases Nat.le_one_iff_eq_zero_or_eq_one.mp hle with h | h
          · exact h0 (Fin.ext h)
          · exact h1 (Fin.ext h)
        exact if_pos (if_neg hgt)
  have h0 : (booted.proc 0).state ≠ .UNUSED := by decide
  have h1 : (booted.proc 1).state ≠ .UNUSED := by decide
  have hdir : (booted.proc 1).pgdir.own = 0 := own_empty
  rw [Finset.sum_congr rfl fun q _ => hown q, Finset.sum_add_distrib, Finset.sum_ite_eq' Finset.univ,
    Finset.sum_ite_eq' Finset.univ, if_pos (Finset.mem_univ _), if_pos (Finset.mem_univ _),
    own_of_live h0, own_of_live h1, hdir, add_zero]

theorem booted_kept : booted.kept 0 = booted.freelist +
    ({(booted.proc 0).kstack} + (booted.proc 0).pgdir.own + {(booted.proc 1).kstack}) := by
  unfold Kernel.kept
  rw [booted_own, zero_add]

theorem booted_pages : (booted.freelist : Multiset ℕ) +
    ({(booted.proc 0).kstack} + (booted.proc 0).pgdir.own + {(booted.proc 1).kstack}) ≤
      (([500, 300, 302, 301] : List ℕ) : Multiset ℕ) := by
  have hle : (booted.freelist : Multiset ℕ) +
      ({(booted.proc 0).kstack} + (booted.proc 0).pgdir.own + {(booted.proc 1).kstack}) ≤
      booted.freelist + ({(booted.proc 0).kstack} + ([302] : List ℕ) + {(booted.proc 1).kstack}) :=
    add_le_add_right (add_le_add_left (add_le_add_right booted_dir _) _) _
  exact hle.trans (le_of_eq rfl)

/-- A kernel without mappings, whose pages come from a list without duplicates. -/
theorem Boot.of_list {m : Multiset ℕ} {xs : List ℕ} (hkept : k.kept 0 = m) (hle : m ≤ xs)
    (hnodup : xs.Nodup) (hfree : ∀ x ∈ xs, k.Freeable x)
    (hpte : ∀ q, (k.proc q).pgdir.pte = fun _ => none)
    (hentries : ∀ q i, ((k.proc q).mapEntries i).startingVirtualAddress = 0)
    (hsize : ∀ q, (k.proc q).sz = 0)
    (himage : 2 ≤ k.kernelEnd) : Boot k := by
  refine ⟨?_, ?_, ?_, fun q _ i _ _ => hentries q i, fun q _ => hsize q ▸ Nat.zero_le _, himage⟩
  · rw [hkept]
    exact Multiset.nodup_of_le hle (Multiset.coe_nodup.mpr hnodup)
  · rw [hkept]
    exact fun x hx => hfree x (Multiset.mem_coe.mp (Multiset.mem_of_le hle hx))
  · intro q _ x ⟨i, hi, hx⟩
    rw [hpte] at hx
    cases hx

theorem booted_freeable : ∀ x ∈ [500, 300, 302, 301], booted.Freeable x := by
  intro x hx
  have hcases : x = 500 ∨ x = 300 ∨ x = 302 ∨ x = 301 := by simpa using hx
  show 256 ≤ x ∧ x < PHYSTOP
  have hconst : PHYSTOP = 57344 := rfl
  omega

theorem booted_entries (q : Slot) (i : ℕ) : ((booted.proc q).mapEntries i).startingVirtualAddress = 0 := by
  show (if q = 1 then ⟨0, 0, 0, 0, true, 0⟩ else MapEntry.unused).startingVirtualAddress = 0
  split
  · rfl
  · rfl

theorem booted_boot : Boot booted :=
  .of_list booted_kept booted_pages (by simp) booted_freeable booted_pte booted_entries (fun _ => rfl)
    (show 2 ≤ 256 by omega)

theorem booted_lone : Records.Lone 0 booted :=
  ⟨rfl, rfl, booted_pte, rfl, rfl, rfl⟩

/-- The first process maps the page. -/
theorem booted_mmap : ∃ k', Reach Boot step Admissible k' ∧ Records.Full 0 k' ∧
    (∀ q, (k'.proc q).state = (booted.proc q).state) ∧ (k'.proc 0).parent = some 1 ∧
    (k'.proc 0).ofile = (fun _ => none) ∧ k'.initproc = 1 := by
  obtain ⟨k', hrun, hfull⟩ := booted_lone.mmap (by decide) Records.quiet
  have hstep : step booted (0, .mmap Records.onePage Records.quiet) k' := map_fst_of_ok hrun
  have hlive : (booted.proc 0).Live := ⟨by decide, by decide⟩
  have hdefined : Defined booted 0 (.mmap Records.onePage Records.quiet) :=
    ⟨show 0 < NMAP by decide, by decide, fun hanon => absurd hanon (by decide)⟩
  have hreach : Reach Boot step Admissible k' :=
    .next (.start booted_boot) ⟨hlive, hdefined, trivial⟩ hstep
  refine ⟨k', hreach, hfull, ?_⟩
  obtain ⟨-, -, d, fl, mem, file, -, -, -, rfl⟩ := sys_mmap_some hrun
  refine ⟨fun q => ?_, ?_, ?_, rfl⟩
  · by_cases hq : q = 0
    · rw [hq, Kernel.modify_self]
    · rw [Kernel.modify_of_ne _ hq]
  · rw [Kernel.modify_self]
    rfl
  · rw [Kernel.modify_self]
    rfl

/-- The page is in common use, nothing with an owner is, and the process can go on to `exit`. -/
theorem pages_owned_once_mmap : ∃ k', Reach Boot step Admissible k' ∧ ispamapped 500 k' ∧
    Exclusive (k'.kept 0) {x | ispamapped x k'} ∧ Fails Panic (next k' (0, .exit)) := by
  obtain ⟨k', hreach, hfull, hstate, -⟩ := booted_mmap
  obtain ⟨howned, -, hpanics⟩ := pages_owned_once hreach
  have hlive : (k'.proc 0).Live := by
    unfold Proc.Live
    rw [hstate]
    exact ⟨by decide, by decide⟩
  exact ⟨k', hreach, ⟨0, hlive.1, mem_mapped_of_pte (le_refl _) (by decide) (hfull.pte_self MMAPBASE)⟩,
    howned, hpanics (0, .exit) ⟨hlive, trivial, trivial⟩⟩

/-! ### The end of a process -/

/-- Another process maps the page. -/
def MappedElsewhere (k : Kernel) (c : Slot) (x : ℕ) : Prop :=
  ∃ q : Slot, q ≠ c ∧ (k.proc q).state ≠ .UNUSED ∧
    ∃ i < KERNBASE - MMAPBASE, (k.proc q).pgdir.pte (MMAPBASE + i) = some x

instance (k : Kernel) (c : Slot) (x : ℕ) : Decidable (MappedElsewhere k c x) := by
  unfold MappedElsewhere
  infer_instance

theorem mappedElsewhere_congr (hproc : ∀ q, q ≠ c → (k'.proc q).state = (k.proc q).state ∧
    (k'.proc q).pgdir = (k.proc q).pgdir) (x : ℕ) : MappedElsewhere k' c x ↔ MappedElsewhere k c x := by
  refine exists_congr fun q => and_congr_right fun hq => ?_
  rw [(hproc q hq).1, (hproc q hq).2]

/-- An entry in the range of the mappings has nothing to do with what the process owns. -/
theorem own_clear {d : PgDir} (hva : MMAPBASE ≤ va) : (d.clear va).own = d.own := by
  have himage : holdings (List.range MMAPBASE) (d.clear va).pte = holdings (List.range MMAPBASE) d.pte := by
    refine holdings_congr fun x hx => Function.update_of_ne ?_ ..
    have hlt := List.mem_range.mp hx
    omega
  unfold PgDir.own
  rw [himage]
  rfl

/-- The pages at the places `idx` of the range. -/
def pagesAt (d : PgDir) (idx : List ℕ) : Multiset ℕ :=
  holdings idx fun i => d.pte (MMAPBASE + i)

theorem pagesAt_cons_some {d : PgDir} {i x : ℕ} (idx : List ℕ) (h : d.pte (MMAPBASE + i) = some x) :
    pagesAt d (i :: idx) = x ::ₘ pagesAt d idx := by
  unfold pagesAt holdings
  rw [List.filterMap_cons, h]
  rfl

theorem pagesAt_cons_none {d : PgDir} {i : ℕ} (idx : List ℕ) (h : d.pte (MMAPBASE + i) = none) :
    pagesAt d (i :: idx) = pagesAt d idx := by
  unfold pagesAt holdings
  rw [List.filterMap_cons, h]

theorem clear_pte_of_ne {d : PgDir} {i j : ℕ} (h : j ≠ i) :
    (d.clear (MMAPBASE + i)).pte (MMAPBASE + j) = d.pte (MMAPBASE + j) :=
  Function.update_of_ne (by omega) ..

theorem present_iff {d : PgDir} (h : va < KERNBASE) : present d va = true ↔ d.pte va ≠ none := by
  rw [present_of_lt h]
  exact Option.isSome_iff_ne_none

/-- The entry of a page is cleared: the page is freed, or some process still maps it. -/
theorem clearpte_frees {i x : ℕ} {b : Bool} (hi : i < KERNBASE - MMAPBASE)
    (hpte : (k.proc c).pgdir.pte (MMAPBASE + i) = some x)
    (hrun : clearpte c (MMAPBASE + i) k = .ok (k₁, b)) :
    ∃ fl mem, k₁ = k.withDir c ((k.proc c).pgdir.clear (MMAPBASE + i)) fl mem ∧
      (fl = k.freelist ∧ (MappedElsewhere k c x ∨
          ∃ j < KERNBASE - MMAPBASE, j ≠ i ∧ (k.proc c).pgdir.pte (MMAPBASE + j) = some x) ∨
        fl = x :: k.freelist ∧ k.Freeable x ∧ ¬MappedElsewhere k c x) := by
  have hwalk : walkpgdir (k.proc c).pgdir (MMAPBASE + i) = some (some x) := by
    unfold walkpgdir
    rw [if_pos (by omega), hpte]
    obtain ⟨t, ht⟩ := Option.isSome_iff_exists.mp ((k.proc c).pgdir.backed _ _ hpte)
    rw [ht]
    rfl
  obtain ⟨-, -, hnone⟩ | ⟨pte, fl, mem, -, hw, rfl, hcase⟩ := clearpte_ok hrun
  · rw [hwalk] at hnone
    cases hnone
  · rw [hwalk] at hw
    cases hw
    refine ⟨fl, mem, rfl, hcase.imp ?_ ?_⟩
    · rintro ⟨hfl, -, q, hq, j, hj, hqpte⟩
      refine ⟨hfl, ?_⟩
      by_cases hqc : q = c
      · rw [hqc, Kernel.withDir_self_proc] at hqpte
        obtain ⟨hne, hold⟩ := clear_pte_some hqpte
        exact .inr ⟨j, hj, by omega, hold⟩
      · rw [Kernel.withDir_proc_of_ne _ _ _ _ _ hqc] at hq hqpte
        exact .inl ⟨q, hqc, hq, j, hj, hqpte⟩
    · intro ⟨hfl, hfree, hnot⟩
      refine ⟨hfl, hfree, fun ⟨q, hqc, hq, j, hj, hqpte⟩ => hnot ⟨q, ?_, j, hj, ?_⟩⟩
      · rw [Kernel.withDir_proc_of_ne _ _ _ _ _ hqc]
        exact hq
      · rw [Kernel.withDir_proc_of_ne _ _ _ _ _ hqc]
        exact hqpte

/-- **What the loop of `exit` frees**: the pages that no other process maps. -/
theorem clearMappings_frees {idx : List ℕ} (h : Sound hand k) (hlive : (k.proc c).Live)
    (hnodup : idx.Nodup) (hidx : ∀ i ∈ idx, i < KERNBASE - MMAPBASE)
    (hall : ∀ i < KERNBASE - MMAPBASE, (k.proc c).pgdir.pte (MMAPBASE + i) ≠ none → i ∈ idx)
    (hrun : clearMappings c (idx.map (MMAPBASE + ·)) k = .ok k') :
    (k'.freelist : Multiset ℕ) =
        k.freelist + (pagesAt (k.proc c).pgdir idx).filter (fun x => ¬MappedElsewhere k c x) ∧
      (∀ i ∈ idx, ∀ x, (k.proc c).pgdir.pte (MMAPBASE + i) = some x →
        k.Freeable x ∨ MappedElsewhere k c x) ∧
      (k'.proc c).own = (k.proc c).own := by
  induction idx generalizing k with
  | nil =>
    cases hrun
    exact ⟨(add_zero _).symm, fun i hi => absurd hi List.not_mem_nil, rfl⟩
  | cons i idx ih =>
    obtain ⟨hi, hnodup'⟩ := List.nodup_cons.mp hnodup
    have hlt := hidx i List.mem_cons_self
    have hidx' : ∀ j ∈ idx, j < KERNBASE - MMAPBASE := fun j hj => hidx j (List.mem_cons_of_mem _ hj)
    have hva : MMAPBASE + i < KERNBASE := by omega
    rw [List.map_cons] at hrun
    unfold Vm.clearMappings at hrun
    cases hpte : (k.proc c).pgdir.pte (MMAPBASE + i) with
    | none =>
      rw [if_neg (fun hpresent => (present_iff hva).mp hpresent hpte)] at hrun
      have hall' : ∀ j < KERNBASE - MMAPBASE, (k.proc c).pgdir.pte (MMAPBASE + j) ≠ none → j ∈ idx := by
        intro j hj hne
        refine (List.mem_cons.mp (hall j hj hne)).resolve_left ?_
        rintro rfl
        exact hne hpte
      obtain ⟨hfl, hfree, hown⟩ := ih h hlive hnodup' hidx' hall' hrun
      rw [pagesAt_cons_none idx hpte]
      refine ⟨hfl, fun j hj x hx => ?_, hown⟩
      rcases List.mem_cons.mp hj with rfl | hmem
      · rw [hpte] at hx
        cases hx
      · exact hfree j hmem x hx
    | some x =>
      rw [if_pos ((present_iff hva).mpr (by rw [hpte]; exact Option.some_ne_none _))] at hrun
      obtain ⟨⟨k₁, b⟩, h₁, h₂⟩ := bind_eq_ok hrun
      have hsound := (h.clearpte hlive (by omega) h₁).1
      obtain ⟨fl, mem, rfl, hcase⟩ := clearpte_frees hlt hpte h₁
      have hproc := Kernel.withDir_self_proc k c ((k.proc c).pgdir.clear (MMAPBASE + i)) fl mem
      have helse : ∀ y, MappedElsewhere (k.withDir c ((k.proc c).pgdir.clear (MMAPBASE + i)) fl mem) c y ↔
          MappedElsewhere k c y := by
        refine mappedElsewhere_congr fun q hq => ?_
        rw [Kernel.withDir_proc_of_ne _ _ _ _ _ hq]
        exact ⟨rfl, rfl⟩
      have hne : ∀ j ∈ idx, j ≠ i := by
        rintro j hj rfl
        exact hi hj
      have hall' : ∀ j < KERNBASE - MMAPBASE, ((k.withDir c ((k.proc c).pgdir.clear (MMAPBASE + i)) fl
          mem).proc c).pgdir.pte (MMAPBASE + j) ≠ none → j ∈ idx := by
        intro j hj hpresent
        rw [hproc] at hpresent
        obtain ⟨y, hy⟩ := Option.ne_none_iff_exists'.mp hpresent
        obtain ⟨hji, hold⟩ := clear_pte_some hy
        refine (List.mem_cons.mp (hall j hj (by rw [hold]; exact Option.some_ne_none _))).resolve_left ?_
        omega
      obtain ⟨hfl, hfree, hown⟩ := ih hsound ((live_withDir ..).mpr hlive) hnodup' hidx' hall' h₂
      have hfree' : ∀ j ∈ idx, ∀ y, (k.proc c).pgdir.pte (MMAPBASE + j) = some y →
          k.Freeable y ∨ MappedElsewhere k c y := by
        intro j hj y hy
        rw [← helse]
        refine hfree j hj y ?_
        rw [hproc]
        exact (clear_pte_of_ne (hne j hj)).trans hy
      have hpages : pagesAt ((k.withDir c ((k.proc c).pgdir.clear (MMAPBASE + i)) fl mem).proc c).pgdir
          idx = pagesAt (k.proc c).pgdir idx := by
        rw [hproc]
        exact holdings_congr fun j hj => clear_pte_of_ne (hne j hj)
      have hown' : (k'.proc c).own = (k.proc c).own := by
        rw [hown, hproc, own_of_live hlive.1,
          own_of_live (p := { k.proc c with pgdir := (k.proc c).pgdir.clear (MMAPBASE + i) }) hlive.1,
          own_clear (Nat.le_add_right ..)]
      rw [hpages, Multiset.filter_congr fun y _ => not_congr (helse y), Kernel.withDir_freelist] at hfl
      rw [pagesAt_cons_some idx hpte, hfl]
      have hrest : k.Freeable x ∨ MappedElsewhere k c x → ∀ j ∈ i :: idx, ∀ y,
          (k.proc c).pgdir.pte (MMAPBASE + j) = some y → k.Freeable y ∨ MappedElsewhere k c y := by
        intro hx j hj y hy
        rcases List.mem_cons.mp hj with rfl | hmem
        · rw [hpte] at hy
          cases hy
          exact hx
        · exact hfree' j hmem y hy
      rcases hcase with ⟨rfl, hstill⟩ | ⟨rfl, hfreeable, hnot⟩
      · -- the page stays: another process maps it, as this one does not map a page of its own twice
        have helsewhere : MappedElsewhere k c x := by
          rcases hstill with he | ⟨j, hj, hji, hjpte⟩
          · exact he
          · have hmem : j ∈ idx :=
              (List.mem_cons.mp (hall j hj (by rw [hjpte]; exact Option.some_ne_none _))).resolve_left hji
            refine (hfree' j hmem x hjpte).resolve_left fun hf => ?_
            exact hji ((h.tidy c hlive.1).once j hj i hlt x hjpte hpte hf)
        refine ⟨?_, hrest (.inr helsewhere), hown'⟩
        rw [Multiset.filter_cons_of_neg (p := fun y => ¬MappedElsewhere k c y) _ (not_not.mpr helsewhere)]
      · refine ⟨?_, hrest (.inl hfreeable), hown'⟩
        rw [Multiset.filter_cons_of_pos (p := fun y => ¬MappedElsewhere k c y) _ hnot, ← Multiset.cons_coe,
          Multiset.cons_add, Multiset.add_cons]

/-- What `exit` frees, and what stays with the zombie. -/
theorem exit_frees (h : Sound hand k) (hlive : (k.proc c).Live) (hrun : exit c k = .ok k') :
    (k'.freelist : Multiset ℕ) =
        k.freelist + (k.proc c).pgdir.rangePages.filter (fun x => ¬MappedElsewhere k c x) ∧
      (k'.proc c).own = (k.proc c).own := by
  unfold Vm.exit at hrun
  split at hrun
  · cases hrun
  · obtain ⟨k₁, h₁, h₂⟩ := bind_eq_ok hrun
    cases h₂
    obtain ⟨hq, hfl, hend⟩ := @closeFiles_same k c (List.range NOFILE)
    have hclosed : Sound hand (closeFiles c (List.range NOFILE) k) := h.congr hq hfl hend
    have hlive₁ : ((closeFiles c (List.range NOFILE) k).proc c).Live := by
      unfold Proc.Live
      rw [(hq c).1]
      exact hlive
    have hall : ∀ i < KERNBASE - MMAPBASE, ((closeFiles c (List.range NOFILE) k).proc c).pgdir.pte
        (MMAPBASE + i) ≠ none → i ∈ List.range (KERNBASE - MMAPBASE) :=
      fun i hi _ => List.mem_range.mpr hi
    obtain ⟨hfrees, -, hown⟩ := clearMappings_frees hclosed hlive₁ List.nodup_range
      (fun i hi => List.mem_range.mp hi) hall h₁
    have helse : ∀ y, MappedElsewhere (closeFiles c (List.range NOFILE) k) c y ↔ MappedElsewhere k c y :=
      mappedElsewhere_congr fun q _ => ⟨(hq q).1, (hq q).2.2.1⟩
    refine ⟨?_, ?_⟩
    · show (k₁.freelist : Multiset ℕ) = _
      rw [hfrees, hfl, Multiset.filter_congr fun y _ => not_congr (helse y), (hq c).2.2.1]
      rfl
    · have hown₁ : (k₁.proc c).own = (k.proc c).own := by
        rw [hown]
        unfold Proc.own
        rw [(hq c).1, (hq c).2.1, (hq c).2.2.1]
      have huse : (k₁.proc c).state ≠ .UNUSED :=
        (hclosed.clearMappings hlive₁ (lt_of_mem_range fun i hi => List.mem_range.mp hi) h₁).2.1.1
      dsimp only
      rw [if_pos rfl, own_of_live (p := { k₁.proc c with state := .ZOMBIE }) (fun hz => by cases hz),
        ← hown₁, own_of_live huse]

/-- **A process that exits and is waited for** gives back all that it owned, and of the pages that it mapped
exactly those that no other process maps. -/
theorem death_gives_back {p : Slot} (h : Reach Boot step Admissible k) (hlive : (k.proc c).Live)
    (hexit : exit c k = .ok k₁) (hwait : wait p k₁ = .ok (k₂, some c)) :
    (k₂.freelist : Multiset ℕ) = k.freelist + (k.proc c).own +
      (k.proc c).pgdir.rangePages.filter fun x => ¬MappedElsewhere k c x := by
  have hsound := sound_of_reach h
  obtain ⟨hfl, hown⟩ := exit_frees hsound hlive hexit
  obtain ⟨-, hfl', -⟩ := (hsound.exit hlive hexit).wait_frees hwait
  rw [hfl', hfl, hown, ← add_assoc, add_comm (k.proc c).own]

/-- Where all that the process maps can be freed, the loop of `exit` does not panic. -/
theorem clearMappings_returns {vas : List ℕ} (hvas : ∀ va ∈ vas, va < KERNBASE)
    (hfree : ∀ va ∈ vas, ∀ x, (k.proc c).pgdir.pte va = some x → k.Freeable x) :
    ∃ k', clearMappings c vas k = .ok k' := by
  induction vas generalizing k with
  | nil => exact ⟨k, rfl⟩
  | cons va vas ih =>
    have hrest : ∀ va ∈ vas, va < KERNBASE := fun v hv => hvas v (List.mem_cons_of_mem _ hv)
    unfold clearMappings
    cases hpte : (k.proc c).pgdir.pte va with
    | none =>
      rw [if_neg fun hpresent => (present_iff (hvas va List.mem_cons_self)).mp hpresent hpte]
      exact ih hrest fun v hv => hfree v (List.mem_cons_of_mem _ hv)
    | some x =>
      rw [if_pos ((present_iff (hvas va List.mem_cons_self)).mpr (by rw [hpte]; exact Option.some_ne_none _))]
      obtain ⟨r, hr⟩ : ∃ r, clearpte c va k = .ok r := by
        cases hrun : clearpte c va k with
        | ok r => exact ⟨r, rfl⟩
        | error e =>
          have hone : clearPages c va 1 k = .error e := by
            unfold clearPages
            rw [hrun]
            rfl
          obtain ⟨-, j, hj, pte, hw, hnot⟩ := clearPages_error hone
          have hj0 : j = 0 := by omega
          rw [hj0, Nat.add_zero] at hw
          unfold walkpgdir at hw
          rw [if_pos (hvas va List.mem_cons_self), hpte] at hw
          obtain ⟨-, -, heq⟩ := Option.map_eq_some_iff.mp hw
          rw [← heq] at hnot
          exact absurd (hfree va List.mem_cons_self x hpte) hnot
      obtain ⟨k₁, b⟩ := r
      rw [hr, ok_bind]
      dsimp only
      obtain ⟨-, rfl, -⟩ | ⟨pte, fl, mem, -, -, rfl, -⟩ := clearpte_ok hr
      · exact ih hrest fun v hv => hfree v (List.mem_cons_of_mem _ hv)
      · refine ih hrest fun v hv y hy => ?_
        rw [Kernel.withDir_self_proc] at hy
        exact hfree v (List.mem_cons_of_mem _ hv) y (clear_pte_some hy).2

theorem clearMappings_parent {vas : List ℕ} (hrun : clearMappings c vas k = .ok k') :
    (k'.proc c).parent = (k.proc c).parent := by
  induction vas generalizing k with
  | nil =>
    cases hrun
    rfl
  | cons va vas ih =>
    unfold clearMappings at hrun
    split at hrun
    · obtain ⟨⟨k₁, b⟩, h₁, h₂⟩ := bind_eq_ok hrun
      obtain ⟨-, rfl, -⟩ | ⟨pte, fl, mem, -, -, rfl, -⟩ := clearpte_ok h₁
      · exact ih h₂
      · rw [ih h₂, Kernel.withDir_self_proc]
    · exact ih hrun

theorem closeFiles_none (hnone : (k.proc c).ofile = fun _ => none) (fds : List ℕ) :
    closeFiles c fds k = k := by
  induction fds with
  | nil => rfl
  | cons fd fds ih =>
    unfold closeFiles at ih ⊢
    rw [List.foldl_cons, hnone]
    exact ih

/-- `wait` takes the first zombie child that it finds off the table. -/
theorem wait_returns {p : Slot} (h : Sound 0 k)
    (hfirst : firstSlot (fun p => (k.proc p).parent = some c ∧ (k.proc p).state = .ZOMBIE) = some p) :
    ∃ k', wait c k = .ok (k', some p) := by
  obtain ⟨-, hzombie⟩ := of_decide_eq_true (firstSlot_some hfirst)
  have huse : (k.proc p).state ≠ .UNUSED := by
    rw [hzombie]
    exact fun hz => by cases hz
  have hrange : (k.proc p).pgdir.rangePages = 0 := by
    refine Multiset.eq_zero_of_forall_notMem fun x hx => ?_
    exact (h.tidy p huse).zombie hzombie x (mem_rangePages.mp hx)
  have hkept : ∀ x ∈ (k.proc p).own, k.Freeable x := fun x hx => h.own_freeable hx
  rw [own_of_live huse] at hkept
  unfold wait
  rw [hfirst]
  obtain ⟨k₁, h₁⟩ := kfree_of_freeable (hkept _ (Multiset.mem_add.mpr (.inl (Multiset.mem_singleton_self _))))
  obtain ⟨-, mem, hk₁⟩ := kfree_ok h₁
  obtain ⟨k₂, h₂⟩ : ∃ k₂, freevm (k.proc p).pgdir k₁ = .ok k₂ := by
    refine kfreeAll_of_freeable fun v hv => ?_
    have hmem : v ∈ ((k.proc p).pgdir.pages : Multiset ℕ) := hv
    rw [PgDir.coe_pages, hrange, add_zero] at hmem
    have hfree := hkept v (Multiset.mem_add.mpr (.inr hmem))
    rw [hk₁]
    exact hfree
  have hproc : k₁.proc = k.proc := by rw [hk₁]
  dsimp only
  rw [h₁, ok_bind, hproc, h₂, ok_bind]
  exact ⟨_, rfl⟩

/-- A zombie child in slot `0` is the first. -/
theorem first_zombie (hparent : (k.proc 0).parent = some c) (hzombie : (k.proc 0).state = .ZOMBIE) :
    firstSlot (fun p => (k.proc p).parent = some c ∧ (k.proc p).state = .ZOMBIE) = some 0 := by
  show (List.finRange (63 + 1)).find? _ = some 0
  rw [List.finRange_succ]
  exact List.find?_cons_of_pos (decide_eq_true ⟨hparent, hzombie⟩)

/-- The first process maps the page and exits, and `init` waits for it. -/
theorem death_gives_back_page : ∃ k k₁ k₂, exit 0 k = .ok k₁ ∧ wait 1 k₁ = .ok (k₂, some 0) ∧
    500 ∈ (k.proc 0).pgdir.mapped ∧ (k₂.freelist : Multiset ℕ) = k.freelist + (k.proc 0).own +
      (k.proc 0).pgdir.rangePages.filter fun x => ¬MappedElsewhere k 0 x := by
  obtain ⟨k, hreach, hfull, hstate, hparent, hofile, hinit⟩ := booted_mmap
  have hsound := sound_of_reach hreach
  have hlive : (k.proc 0).Live := by
    unfold Proc.Live
    rw [hstate]
    exact ⟨by decide, by decide⟩
  have hfree : ∀ va x, (k.proc 0).pgdir.pte va = some x → k.Freeable x := by
    intro va x hpte
    rw [hfull.pte_self] at hpte
    split at hpte
    · cases hpte
      show k.kernelEnd ≤ 500 ∧ 500 < PHYSTOP
      rw [hfull.kernelEnd]
      exact ⟨by omega, by decide⟩
    · cases hpte
  have hclosed := closeFiles_none hofile (List.range NOFILE)
  obtain ⟨k', hclear⟩ := @clearMappings_returns k 0 _
    (@lt_of_mem_range (List.range (KERNBASE - MMAPBASE)) fun i hi => List.mem_range.mp hi)
    fun va _ x hx => hfree va x hx
  obtain ⟨k₁, hexit, hp, hz⟩ : ∃ k₁, exit 0 k = .ok k₁ ∧ (k₁.proc 0).parent = some 1 ∧
      (k₁.proc 0).state = .ZOMBIE := by
    unfold exit
    rw [if_neg (by rw [hinit]; decide)]
    show ∃ k₁, (clearMappings 0 _ (closeFiles 0 (List.range NOFILE) k) >>= _) = .ok k₁ ∧ _
    rw [hclosed, hclear, ok_bind]
    refine ⟨_, rfl, ?_, ?_⟩
    · dsimp only
      rw [if_pos rfl]
      exact (clearMappings_parent hclear).trans hparent
    · dsimp only
      rw [if_pos rfl]
  obtain ⟨k₂, hwait⟩ := wait_returns (hsound.exit hlive hexit) (first_zombie hp hz)
  exact ⟨k, k₁, k₂, hexit, hwait, mem_mapped_of_pte (le_refl _) (by decide) (hfull.pte_self MMAPBASE),
    death_gives_back hreach hlive hexit hwait⟩

end OperatingSystems.Vm.Lifetimes
