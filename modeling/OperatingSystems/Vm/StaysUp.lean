import Mathlib
import OperatingSystems.Vm.Steady

/-!
# User arguments and the kernel

Which arguments take the kernel down through `mmap`, over runs.

* **`Mild`** — the faults that have nothing to do with pages and descriptors.
* **`kernel_stays_up`** — careful calls have no other fault, in any state reached, and those that cannot be met
  return `-1`.
* **`bad_calls_panic`** — `mmap` with a descriptor that is not open, and with one that is none; `munmap` of two
  pages where one is mapped.
-/

namespace OperatingSystems.Vm.Lifetimes

open Outcomes Custody GuardedRuns

variable {k k' k₁ k₂ : Kernel} {c q : Slot} {va n i : ℕ} {a : MmapArgs} {ext : External}

/-- Faults that have nothing to do with pages and descriptors: a file without a type, an image with a hole, and
the end of the first process. -/
def Mild : Fault → Prop
  | .filetype | .copyuvm | .initExiting => True
  | .kfree | .remap | .ofileIndex | .nullFile | .nullPte | .mapIndex | .arrayLength | .trap => False

/-- **A call that cannot be met returns `-1`**: an `mmap` that finds no place, and a `munmap` that finds no
record. -/
def Refuses (k : Kernel) : Slot × Call → Prop
  | (c, .mmap a ext) => (∀ va, ¬Placed k c a va) → ∃ k', sys_mmap c a ext k = .ok (k', none)
  | (c, .munmap virtualAddress length ext) => (∀ i, ¬Found k c virtualAddress i) →
      sys_munmap c virtualAddress length ext k = .ok (k, false)
  | _ => True

/-! ### The calls -/

/-- Where there is no place, `mmap` returns `-1`. -/
theorem sys_mmap_unplaced (hno : ∀ va, ¬Placed k c a va) (hlength : a.valid = true → 0 ≤ pagesOf a.length)
    (hfree : ∀ x ∈ k.freelist, k.Freeable x) : ∃ k', sys_mmap c a ext k = .ok (k', none) := by
  unfold sys_mmap
  cases hvalid : a.valid with
  | false => exact ⟨k, rfl⟩
  | true =>
    have hnonneg := hlength hvalid
    rw [if_neg (by decide), if_neg (by omega)]
    dsimp only
    cases halloc : allocPages (pagesOf a.length).toNat [] k with
    | error e =>
      obtain ⟨-, -, x, hx, hnot⟩ := allocPages_error halloc
      exact absurd (hfree x hx) hnot
    | ok r =>
      obtain ⟨k₁, pages⟩ := r
      rw [ok_bind]
      obtain ⟨hroom, rfl, rfl⟩ | ⟨-, rfl, mem, rfl⟩ := allocPages_ok halloc
      · dsimp only
        cases hplace : placeMapping (k.proc c) a (pagesOf a.length).toNat with
        | none => exact ⟨_, rfl⟩
        | some va =>
          dsimp only
          cases hguard : guardOk (k.proc c) a va (pagesOf a.length).toNat with
          | false => exact ⟨_, rfl⟩
          | true => exact absurd ⟨hvalid, hnonneg, hroom, hplace, hguard⟩ (hno va)
      · exact ⟨_, rfl⟩

theorem Steady.mmap_mild (h : Steady k) (hlength : a.valid = true → 0 ≤ pagesOf a.length)
    (hmakes : ∀ va, Placed k c a va → Makes k c a) : Fails Mild (sys_mmap c a ext k) := by
  have hfree : ∀ x ∈ k.freelist, k.Freeable x := fun x hx => h.sound.freeable x (mem_kept_free hx)
  intro e herror
  by_cases hplaced : ∃ va, Placed k c a va
  · obtain ⟨va, hplaced⟩ := hplaced
    have hcan := hmakes va hplaced
    obtain ⟨-, hneg⟩ | ⟨-, -, x, hx, hnot⟩ | ⟨hanon, hfault⟩ | ⟨-, hindex⟩ := sys_mmap_error herror
    · exact absurd hplaced.nonneg (not_le.mpr hneg)
    · exact absurd (hfree x hx) hnot
    · obtain ⟨f, hf⟩ := ofileAt_opens (hcan.file hanon)
      rcases hfault with hopen | ⟨rfl, -⟩
      · rw [hf] at hopen
        cases hopen
      · trivial
    · have hentry := hcan.entry
      omega
  · obtain ⟨k', hnone⟩ := @sys_mmap_unplaced k c a ext (fun va hva => hplaced ⟨va, hva⟩) hlength hfree
    rw [hnone] at herror
    cases herror

/-- The pages of a mapping are there. -/
theorem backed_of_record (h : Mappings (k.proc c)) (hi : IsRecord (k.proc c) i) :
    k.Backed c (((k.proc c).mapEntries i).startingVirtualAddress * PGSIZE)
      (((k.proc c).mapEntries i).numPages * PGSIZE) := by
  intro j hj
  have hpos : 0 < PGSIZE := by decide
  refine h.present i hi _ ⟨?_, ?_⟩
  · rw [Nat.le_div_iff_mul_le hpos]
    exact Nat.le_add_right ..
  · unfold MapEntry.next
    rw [Nat.div_lt_iff_lt_mul hpos, Nat.add_mul]
    exact Nat.add_lt_add_left hj _

theorem writeMapping_mild (h : Mappings (k.proc c)) (hi : IsRecord (k.proc c) i)
    (hfile : has ((k.proc c).mapEntries i).flags MAP_ANONYMOUS = false →
      Opens (k.proc c) ((k.proc c).mapEntries i).fd) :
    Fails Mild (writeMapping c ((k.proc c).mapEntries i) ((k.proc c).mapEntries i).startingVirtualAddress
      ext k) := by
  unfold writeMapping
  split
  · exact .ok
  · rename_i hflags
    rw [Bool.not_eq_true, Bool.or_eq_false_iff] at hflags
    obtain ⟨f, hf⟩ := ofileAt_opens (hfile hflags.1)
    rw [hf, ok_bind]
    dsimp only
    unfold filewrite
    dsimp only
    split
    · exact .ok
    · split
      · exact .ok
      · obtain ⟨r, hr⟩ : ∃ r, writeChunks c f (((k.proc c).mapEntries i).startingVirtualAddress * PGSIZE) ext
            (((k.proc c).mapEntries i).numPages * PGSIZE) (((k.proc c).mapEntries i).numPages * PGSIZE)
            (k.setFile f { k.file f with off := 0 }) = .ok r := writeChunks_returns (backed_of_record h hi)
        rw [hr]
        exact .ok
      · exact .error trivial

theorem Steady.munmap_mild (h : Steady k) (hlive : (k.proc c).Live) {virtualAddress length : ℤ}
    (hmeets : ∀ i, findmappingmetadata (k.proc c) (pageOf virtualAddress) = some i →
      ((k.proc c).mapEntries i).inUse = true ∧ munmapPages length ≤ ((k.proc c).mapEntries i).numPages) :
    Fails Mild (sys_munmap c virtualAddress length ext k) := by
  have hready := h.ready c hlive
  have hmappings := hready.settled.mappings
  intro e herror
  obtain ⟨i, hfound, hfault⟩ := sys_munmap_error herror
  obtain ⟨hu, hn⟩ := hmeets i hfound.found
  obtain ⟨hi, hs⟩ := Found.record hfound hready.settled hu
  rw [← hs] at hfault
  rcases hfault with hwrite | ⟨k₁, hwrite, hclear⟩
  · exact writeMapping_mild hmappings hi (hready.files i hi) e hwrite
  · -- what is cleared belongs to the mapping
    obtain ⟨hproc, hfixed⟩ := writeMapping_proc hmappings hi hwrite
    obtain ⟨-, j, hj, pte, hwalk, hnot⟩ := clearPages_error hclear
    have hcovers : ((k.proc c).mapEntries i).Covers (((k.proc c).mapEntries i).startingVirtualAddress + j) :=
      ⟨Nat.le_add_right .., Nat.add_lt_add_left (hj.trans_le hn) _⟩
    obtain ⟨hlo, hhi⟩ := hi.range (hmappings.within i hi) hcovers
    obtain ⟨pa, hpa⟩ := Option.isSome_iff_exists.mp (hmappings.present i hi _ hcovers)
    rw [hproc, walkpgdir_of_pte hhi hpa] at hwalk
    cases hwalk
    rw [hfixed.freeable] at hnot
    exact absurd (hready.memory pa (mem_mapped_of_pte hlo hhi hpa)) hnot

theorem Steady.fork_mild (h : Steady k) (hlive : (k.proc c).Live) (hroom : ForkRoom k c) :
    Fails Mild (Vm.fork c k) := by
  have hapart := h.sound.freeApart hlive.1
  obtain ⟨k', hfork, -⟩ | ⟨e, hfork, he⟩ | ⟨np, k₀, hforked, hfork⟩ := fork_cases hlive.1 hapart.below
  · rw [hfork]
    exact .ok
  · rw [hfork, he fun x hx => h.sound.freeable x (mem_kept_free hx)]
    exact .error trivial
  · obtain ⟨k', hcopy, -⟩ := hforked.copies hapart hlive (h.ready c hlive).settled.mappings hroom
    rw [hfork, hcopy]
    exact .ok

theorem Steady.exit_mild (h : Steady k) (hlive : (k.proc c).Live) : Fails Mild (Vm.exit c k) := by
  unfold Vm.exit
  split
  · exact .error trivial
  · obtain ⟨hsame, -, hend⟩ := @closeFiles_same k c (List.range NOFILE)
    have hmemory : ∀ va ∈ (List.range (KERNBASE - MMAPBASE)).map (MMAPBASE + ·), ∀ x,
        ((closeFiles c (List.range NOFILE) k).proc c).pgdir.pte va = some x →
          (closeFiles c (List.range NOFILE) k).Freeable x := by
      intro va hva x hpte
      obtain ⟨j, hj, rfl⟩ := List.mem_map.mp hva
      rw [(hsame c).2.2.1] at hpte
      unfold Kernel.Freeable
      rw [hend]
      exact (h.ready c hlive).memory x ⟨j, List.mem_range.mp hj, hpte⟩
    obtain ⟨k', hclear⟩ := clearMappings_returns
      (@lt_of_mem_range (List.range (KERNBASE - MMAPBASE)) fun i hi => List.mem_range.mp hi) hmemory
    show Fails Mild (clearMappings c _ (closeFiles c (List.range NOFILE) k) >>= _)
    rw [hclear]
    exact .ok

theorem Steady.wait_mild (h : Steady k) : Fails Mild (Vm.wait c k) := by
  cases hfirst : firstSlot (fun p => (k.proc p).parent = some c ∧ (k.proc p).state = .ZOMBIE) with
  | none =>
    unfold Vm.wait
    rw [hfirst]
    exact .ok
  | some p =>
    obtain ⟨k', hwait⟩ := wait_returns h.sound hfirst
    rw [hwait]
    exact .ok

theorem Steady.grow_mild (h : Steady k) (hlive : (k.proc c).Live) : Fails Mild (cangrowup c va k) := by
  obtain ⟨e, he⟩ := (h.ready c hlive).settled.records
  have hguard := (h.ready c hlive).settled.guard
  unfold cangrowup
  dsimp only
  split
  · exact .ok
  · rename_i i hfind
    have hi := List.mem_range.mp (List.mem_of_find?_eq_some hfind)
    have hgrown := List.find?_some hfind
    obtain ⟨hu, hgrows, hva, -⟩ := growsInto_iff.mp hgrown
    have hrecord : IsRecord (k.proc c) i := ⟨Nat.lt_succ_iff.mp hi, hu⟩
    obtain ⟨-, hlt, -⟩ := he.agree.guard i hrecord hgrows
    obtain ⟨⟨d, fl, b⟩, hmap⟩ : ∃ r, mappages (k.proc c).pgdir
        (((k.proc c).mapEntries i).startingVirtualAddress + ((k.proc c).mapEntries i).numPages)
        ((kalloc k.freelist).getD (nullPage, k.freelist)).1
        ((kalloc k.freelist).getD (nullPage, k.freelist)).2 = .ok r :=
      mappages_free hlt (hguard i hrecord hgrows)
    rw [hmap, ok_bind]
    dsimp only
    split
    · rw [setEntry, if_pos (he.agree.index i hrecord)]
      exact .ok
    · exact .ok

theorem Steady.fault_mild (h : Steady k) (hlive : (k.proc c).Live) : Fails Mild (pagefault c va k) := by
  refine (h.grow_mild hlive).bind fun r hr => ?_
  obtain ⟨k₁, grown⟩ := r
  cases grown with
  | true => exact .ok
  | false =>
    obtain ⟨hproc, hfixed⟩ := cangrowup_proc hr
    refine (h.same (h.sound.grow hlive hr) hfixed hproc).exit_mild ?_
    rw [hproc]
    exact hlive

/-! ### The run -/

theorem Steady.mild {call : Slot × Call} (h : Steady k) (hok : Careful k call) : Fails Mild (next k call) := by
  obtain ⟨c, call⟩ := call
  obtain ⟨hlive, hcond⟩ := hok
  cases call with
  | mmap a ext => exact (h.mmap_mild hcond.1 hcond.2).map _
  | munmap virtualAddress length ext => exact (h.munmap_mild hlive hcond).map _
  | sbrk n => exact hcond.elim
  | fork => exact (h.fork_mild hlive hcond).map _
  | exec program => exact hcond.elim
  | exit => exact h.exit_mild hlive
  | wait => exact h.wait_mild.map _
  | fault va => exact h.fault_mild hlive

theorem Steady.refuses {call : Slot × Call} (h : Steady k) (hok : Careful k call) : Refuses k call := by
  obtain ⟨c, call⟩ := call
  cases call with
  | mmap a ext =>
    intro hno
    exact sys_mmap_unplaced hno hok.2.1 fun x hx => h.sound.freeable x (mem_kept_free hx)
  | munmap virtualAddress length ext =>
    intro hno
    unfold sys_munmap
    split
    · rfl
    · rename_i haligned
      dsimp only
      split
      · rfl
      · rename_i i hfind
        exact absurd ⟨not_not.mp haligned, hfind⟩ (hno i)
  | sbrk n => trivial
  | fork => trivial
  | exec program => trivial
  | exit => trivial
  | wait => trivial
  | fault va => trivial

/-- **The call does not take the kernel down**, and returns `-1` where it cannot be met. -/
def StaysUp (k : Kernel) (call : Slot × Call) : Prop :=
  Fails Mild (next k call) ∧ Refuses k call

/-- **Careful calls do not take the kernel down**, in any state reached. -/
theorem kernel_stays_up (h : Reach Start step Careful k) {call : Slot × Call} (hok : Careful k call) :
    StaysUp k call :=
  ⟨(steady_of_reach h).mild hok, (steady_of_reach h).refuses hok⟩

/-! ### Bad arguments -/

theorem map_fst_of_error {α β : Type} {x : Except Fault (α × β)} {e : Fault} (h : x = .error e) :
    x.map Prod.fst = .error e := by
  rw [h]
  rfl

theorem ispamapped_clear {x : ℕ} {fl : List ℕ} {mem : ℕ → Page}
    (h : ispamapped x (k.withDir c ((k.proc c).pgdir.clear va) fl mem)) : ispamapped x k := by
  obtain ⟨p, hstate, i, hi, hpte⟩ := h
  by_cases hp : p = c
  · rw [hp, Kernel.withDir_self_proc] at hstate hpte
    exact ⟨c, hstate, i, hi, (clear_pte_some hpte).2⟩
  · rw [Kernel.withDir_proc_of_ne _ _ _ _ _ hp] at hstate hpte
    exact ⟨p, hstate, i, hi, hpte⟩

/-- The loop of `munmap` does not get past a page that is not there: its physical address is `0`. -/
theorem clearPages_present {b : Bool} {j : ℕ} (h : clearPages c va n k = .ok (k', b)) (hnone : ¬ispamapped 0 k)
    (hzero : ¬k.Freeable 0) (hj : j < n) (hcomes : ComesTo (k.proc c).pgdir va j) :
    walkpgdir (k.proc c).pgdir (va + j) ≠ some none := by
  induction n generalizing va j k with
  | zero => exact absurd hj (Nat.not_lt_zero j)
  | succ n ih =>
    obtain ⟨⟨k₁, b₁⟩, h₁, h₂⟩ := bind_eq_ok h
    dsimp only at h₂
    obtain ⟨rfl, rfl, hw⟩ | ⟨pte, fl, mem, rfl, hw, rfl, hfl⟩ := clearpte_ok h₁
    · exact absurd hw (hcomes 0 (Nat.zero_le j))
    · cases j with
      | zero =>
        intro habsent
        rw [Nat.add_zero, hw] at habsent
        cases habsent
        rcases hfl with ⟨-, -, hmapped⟩ | ⟨-, hfree, -⟩
        · exact hnone (ispamapped_clear hmapped)
        · exact hzero hfree
      | succ j =>
        have hrest := (comesTo_succ.mp hcomes).2
        have hnext := ih h₂ (fun hmapped => hnone (ispamapped_clear hmapped)) hzero
          (Nat.lt_of_succ_lt_succ hj) (by rwa [Kernel.withDir_self_proc, comesTo_clear (Nat.lt_succ_self va)])
        rwa [Kernel.withDir_self_proc, walkpgdir_clear _ (by omega), Nat.add_assoc, Nat.add_comm 1 j] at hnext

/-- Behind the one page of a mapping is none. -/
theorem munmap_behind {s : ℕ} (h : Single Records.onePage 1 (stocked s) k) (hs : 1 ≤ s) :
    sys_munmap 0 0x60000000 8192 Records.quiet k = .error .kfree := by
  have hn : munmapPages 8192 = 2 := by decide
  have hzero : ¬k.Freeable 0 := by
    rintro ⟨hend, -⟩
    rw [h.kernelEnd] at hend
    exact absurd hend (by show ¬256 ≤ 0; decide)
  have hnone : ¬ispamapped 0 k := by
    rintro ⟨q, -, i, -, hpte⟩
    by_cases hq : q = 0
    · rw [hq, h.pte] at hpte
      split at hpte
      · have hin : 0 ∈ List.range' 500 s := List.mem_of_mem_take (List.mem_of_getElem? hpte)
        obtain ⟨hlo, -⟩ := List.mem_range'_1.mp hin
        exact absurd hlo (by decide)
      · cases hpte
    · rw [h.others q hq] at hpte
      change ((booted.proc q).pgdir.pte _) = _ at hpte
      rw [booted_pte] at hpte
      cases hpte
  have hfirst : walkpgdir (k.proc 0).pgdir MMAPBASE = some (some 500) :=
    walkpgdir_of_pte (by decide) (h.page Nat.one_pos hs)
  have hgap : walkpgdir (k.proc 0).pgdir (MMAPBASE + 1) = some none := by
    obtain ⟨d, hproc, htable⟩ := h.process
    obtain ⟨t, ht⟩ := Option.isSome_iff_exists.mp htable
    have hpte := h.pte (MMAPBASE + 1)
    rw [if_neg (by decide)] at hpte
    unfold walkpgdir
    rw [if_pos (by decide), hpte, hproc]
    change (d.table 384).map _ = _
    rw [ht]
    rfl
  have hcomes : ComesTo (k.proc 0).pgdir MMAPBASE 1 := by
    intro i hi
    obtain rfl | rfl : i = 0 ∨ i = 1 := by omega
    · rw [Nat.add_zero, hfirst]
      exact Option.some_ne_none _
    · rw [hgap]
      exact Option.some_ne_none _
  have hwritten : writeMapping 0 ((k.proc 0).mapEntries 0) (pageOf 0x60000000) Records.quiet k =
      .ok (k, true) := by
    rw [h.entries]
    exact if_pos (by decide)
  have hone : ∀ {i}, Found k 0 0x60000000 i → i = 0 := by
    intro i hi
    have he := hi.found
    rw [h.found.found] at he
    exact (Option.some.inj he).symm
  cases hrun : sys_munmap 0 0x60000000 8192 Records.quiet k with
  | error e =>
    obtain ⟨i, hfound, hwrite | ⟨k₁, -, hclear⟩⟩ := sys_munmap_error hrun
    · rw [hone hfound, hwritten] at hwrite
      cases hwrite
    · rw [(clearPages_error hclear).1]
  | ok r =>
    obtain ⟨k', b⟩ := r
    -- the loop would have to get past the second page
    have hpast : ∀ {k₂ b'}, clearPages 0 (pageOf 0x60000000) (munmapPages 8192) k ≠ .ok (k₂, b') :=
      fun hclear => clearPages_present hclear hnone hzero (hn ▸ Nat.one_lt_two) hcomes hgap
    cases sys_munmap_exit hrun with
    | misaligned hnot => exact absurd h.found.aligned hnot
    | unknown _ hunknown =>
      rw [h.found.found] at hunknown
      cases hunknown
    | write i k₁ hfound hwrite =>
      rw [hone hfound, hwritten] at hwrite
      cases hwrite
    | clear i k₁ k₂ hfound hwrite hclear =>
      rw [hone hfound, hwritten] at hwrite
      cases hwrite
      exact absurd hclear hpast
    | done i k₁ k₂ hfound hwrite hclear =>
      rw [hone hfound, hwritten] at hwrite
      cases hwrite
      exact absurd hclear hpast

/-- A shared page of a file, at the lowest address. -/
def filePage (fd : ℤ) : MmapArgs where
  virtualAddress := 0x60000000
  length := 4096
  prot := 3
  flags := MAP_SHARED ||| MAP_FIXED
  fd := fd
  offset := 0

theorem filePage_lowest (fd : ℤ) : Lowest (filePage fd) 1 where
  pos := Nat.one_pos
  valid := show (filePage 0).valid = true by decide
  fixed := show has (MAP_SHARED ||| MAP_FIXED) MAP_FIXED = true by decide
  still := show has (MAP_SHARED ||| MAP_FIXED) MAP_GROWSUP = false by decide
  start := show pageOf 0x60000000 = MMAPBASE by decide
  length := show pagesOf 4096 = 1 by decide
  short := by decide

/-- **Three calls with bad arguments**: a descriptor that is not open, one outside the table of open files, and
`munmap` of two pages where one is mapped. -/
theorem bad_calls_panic : ∃ k, Start (stocked 150) ∧
    sys_mmap 0 (filePage 7) Records.quiet (stocked 150) = .error .nullFile ∧
    sys_mmap 0 (filePage 16) Records.quiet (stocked 150) = .error .ofileIndex ∧
    sys_mmap 0 Records.onePage Records.quiet (stocked 150) = .ok (k, some MMAPBASE) ∧
    sys_munmap 0 0x60000000 8192 Records.quiet k = .error .kfree ∧
    ¬StaysUp (stocked 150) (0, .mmap (filePage 7) Records.quiet) ∧
    ¬StaysUp (stocked 150) (0, .mmap (filePage 16) Records.quiet) ∧
    ¬StaysUp k (0, .munmap 0x60000000 8192 Records.quiet) := by
  obtain ⟨k, hmmap, hsingle, -⟩ := stocked_mmap (s := 150) onePage_lowest (by decide) (by decide) (by decide)
  have hroom : 1 ≤ (stocked 150).freelist.length := by
    show 1 ≤ (List.range' 500 150).length
    rw [List.length_range']
    decide
  have hclosed : sys_mmap 0 (filePage 7) Records.quiet (stocked 150) = .error .nullFile :=
    (stocked_bare 150).mmap_fault (filePage_lowest 7) hroom _ (by decide) rfl
  have houtside : sys_mmap 0 (filePage 16) Records.quiet (stocked 150) = .error .ofileIndex :=
    (stocked_bare 150).mmap_fault (filePage_lowest 16) hroom _ (by decide) rfl
  have hkfree := munmap_behind hsingle (by decide)
  refine ⟨k, stocked_start (by decide), hclosed, houtside, hmmap, hkfree, fun h => ?_, fun h => ?_, fun h => ?_⟩
  · exact h.1 .nullFile (map_fst_of_error hclosed)
  · exact h.1 .ofileIndex (map_fst_of_error houtside)
  · exact h.1 .kfree (map_fst_of_error hkfree)

/-- The child unmaps the first of two pages that it shares with its parent; it is refused where the address is
not aligned. -/
theorem kernel_stays_up_child : ∃ k, Reach Start step Careful k ∧ (k.proc 2).pgdir.pte MMAPBASE = some 500 ∧
    StaysUp k (2, .munmap 0x60000000 4096 Records.quiet) ∧
    sys_munmap 2 0x60000001 4096 Records.quiet k = .ok (k, false) := by
  obtain ⟨k₁, k, hmmap, hsingle, hfork, hcommon⟩ := common_fork
  have hmmapStep : step (stocked 150) (0, .mmap (commonPages 2) Records.quiet) k₁ := map_fst_of_ok hmmap
  have hforkStep : step k₁ (0, .fork) k := map_fst_of_ok hfork
  have hmakes : Careful (stocked 150) (0, .mmap (commonPages 2) Records.quiet) := by
    refine ⟨stocked_live 150, fun _ => by decide, fun va _ => ⟨by decide, by decide, fun hnot => ?_⟩⟩
    cases hnot
  have hreach : Reach Start step Careful k :=
    ((Reach.start (stocked_start (by decide))).next hmakes hmmapStep).next
      ⟨hsingle.live, hsingle.forkRoom commonPages_lowest (by decide)⟩ hforkStep
  -- both addresses are in the first page of the mapping
  have hcareful : ∀ virtualAddress, pageOf virtualAddress = MMAPBASE →
      Careful k (2, .munmap virtualAddress 4096 Records.quiet) := by
    intro virtualAddress hpage
    refine ⟨hcommon.live.2, fun i hi => ?_⟩
    have hfind := hcommon.accord.2.found hcommon.entry.1
    rw [hcommon.entry.2] at hfind
    change findmappingmetadata (k.proc 2) (pageOf virtualAddress) = some i at hi
    rw [hpage, show MMAPBASE = ((commonPages 2).entry MMAPBASE 2).startingVirtualAddress from rfl, hfind] at hi
    cases hi
    refine ⟨hcommon.entry.1.2, ?_⟩
    rw [hcommon.entry.2]
    show munmapPages 4096 ≤ 2
    decide
  have hchild := hcommon.child MMAPBASE
  rw [if_pos (by decide)] at hchild
  refine ⟨k, hreach, ?_, kernel_stays_up hreach (hcareful _ (by decide)),
    (kernel_stays_up hreach (hcareful 0x60000001 (by decide))).2 fun i hfound => ?_⟩
  · rw [hchild]
    exact hcommon.parent 0 (by decide)
  · exact absurd hfound.aligned (by decide)

end OperatingSystems.Vm.Lifetimes
