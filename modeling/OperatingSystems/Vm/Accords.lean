import Mathlib
import OperatingSystems.Vm.InUse

/-!
# Records and page table over runs

`munmap` takes its number of pages from the caller and drops the whole record, `mmap` leaves pages without a
record when it fails late, and `fork` returns a child whose pages are not all there.

* **`RecordsAgree`** — what the records of a process and its page table should say together.
* **`InStep`** — a call that keeps them together, **`records_agree`**: so they are in every state reached.
* **`munmap_leaves_page`** — a `munmap` of half a mapping succeeds, and the other half has no record.
-/

namespace OperatingSystems.Vm.Lifetimes

open Outcomes GuardedRuns

variable {k k' k₁ k₂ : Kernel} {c q : Slot} {va n i : ℕ} {a : MmapArgs} {ext : External}

/-- **The records and the page table of a process agree**: every mapping has a page, its pages are present, in
the range of the mappings and in no other mapping, every present page of the range is in exactly one mapping,
and a guard page is the page behind its mapping, not present and in no mapping. -/
structure RecordsAgree (p : Proc) : Prop where
  within : ∀ i < NMAP, (p.mapEntries i).inUse = true → 1 ≤ (p.mapEntries i).numPages ∧
    MMAPBASE ≤ (p.mapEntries i).startingVirtualAddress ∧ (p.mapEntries i).next ≤ KERNBASE
  present : ∀ i < NMAP, (p.mapEntries i).inUse = true → ∀ x, (p.mapEntries i).Covers x → (p.pgdir.pte x).isSome
  apart : ∀ i < NMAP, ∀ j < NMAP, (p.mapEntries i).inUse = true → (p.mapEntries j).inUse = true → i ≠ j →
    ∀ x, (p.mapEntries i).Covers x → ¬(p.mapEntries j).Covers x
  owned : ∀ x, MMAPBASE ≤ x → x < KERNBASE → (p.pgdir.pte x).isSome →
    ∃! i, i < NMAP ∧ (p.mapEntries i).inUse = true ∧ (p.mapEntries i).Covers x
  guard : ∀ i < NMAP, (p.mapEntries i).inUse = true → (p.mapEntries i).growsUp = true →
    (p.mapEntries i).guardPageVirtualAddress = (p.mapEntries i).next ∧
      p.pgdir.pte (p.mapEntries i).next = none ∧
      ∀ j < NMAP, (p.mapEntries j).inUse = true → ¬(p.mapEntries j).Covers (p.mapEntries i).next

theorem recordsAgree_of_accord {p : Proc} (h : Accord p) : RecordsAgree p := by
  have hlo : ∀ i, IsRecord p i → ∀ x, (p.mapEntries i).Covers x → MMAPBASE ≤ x ∧ x < KERNBASE := by
    intro i hi x hx
    exact ⟨(inUse_iff.mp hi.2).2.1.trans hx.1, hx.2.trans_le (h.agree.within i hi)⟩
  have hpresent : ∀ i, IsRecord p i → ∀ x, (p.mapEntries i).Covers x → (p.pgdir.pte x).isSome := by
    intro i hi x hx
    obtain ⟨hxlo, hxhi⟩ := hlo i hi x hx
    exact (h.agree.present x hxlo hxhi).mpr ⟨i, hi, hx⟩
  refine ⟨fun i hi hu => ?_, fun i hi hu => hpresent i (h.isRecord hi hu), ?_, fun x hxlo hxhi hsome => ?_,
    fun i hi hu hgrows => ?_⟩
  · have hrecord := h.isRecord hi hu
    exact ⟨h.pages i hrecord, (inUse_iff.mp hu).2.1, h.agree.within i hrecord⟩
  · intro i hi j hj hui huj hne x hx hx'
    exact hne (h.agree.apart i j x (h.isRecord hi hui) (h.isRecord hj huj) hx hx')
  · obtain ⟨i, hi, hx⟩ := (h.agree.present x hxlo hxhi).mp hsome
    refine ⟨i, ⟨h.agree.index i hi, hi.2, hx⟩, ?_⟩
    rintro j ⟨hj, huj, hx'⟩
    exact h.agree.apart j i x (h.isRecord hj huj) hi hx' hx
  · have hrecord := h.isRecord hi hu
    obtain ⟨hguard, -, hnone⟩ := h.agree.guard i hrecord hgrows
    refine ⟨hguard, hnone, fun j hj huj hx => ?_⟩
    have hsome := hpresent j (h.isRecord hj huj) _ hx
    rw [hnone] at hsome
    cases hsome

/-! ### The calls -/

/-- **An `mmap` that has found its place at `va` goes on to the end**: it asks for at least a page, finds an
entry for it, its file can be read, and there are pages for the page tables that the mapping needs. -/
structure Completes (k : Kernel) (c : Slot) (a : MmapArgs) (va : ℕ) : Prop where
  pages : 0 < a.pages
  entry : (k.proc c).currentMappingIndex + 1 < NMAP
  file : Fillable k c a
  tables : a.pages + (missingTables (k.proc c).pgdir.table va a.pages).card ≤ k.freelist.length

/-- **The call keeps records and page table together.**  An `mmap` does not fail once it has mapped pages; a
`munmap` that finds a record names a mapping and all its pages; `fork` has room for the copies; and no process
gives up its page table but the one that exits. -/
def InStep (k : Kernel) (call : Slot × Call) : Prop :=
  (k.proc call.1).Live ∧
    match call.2 with
    | .mmap a _ => ∀ va, Placed k call.1 a va → Completes k call.1 a va
    | .munmap virtualAddress length _ =>
      ∀ i, findmappingmetadata (k.proc call.1) (pageOf virtualAddress) = some i →
        ((k.proc call.1).mapEntries i).inUse = true ∧
          munmapPages length = ((k.proc call.1).mapEntries i).numPages
    | .fork => ForkRoom k call.1
    | .fault _ => True
    | .exit => True
    | .wait => True
    | _ => False

/-- **Before the first call**: nothing is mapped, and no process but the first has a valid entry. -/
structure Start (k : Kernel) : Prop where
  boot : Boot k
  index : ∀ q, (k.proc q).Live → (k.proc q).currentMappingIndex = 0
  cleared : ∀ q, (k.proc q).Live → q ≠ k.initproc → ∀ i < NMAP, ((k.proc q).mapEntries i).isValid = false

/-- Every valid entry is a mapping. -/
def ValidInUse (p : Proc) : Prop :=
  ∀ i < NMAP, (p.mapEntries i).isValid = true → (p.mapEntries i).inUse = true

/-- What the run keeps. -/
structure Together (k : Kernel) : Prop where
  sound : Sound 0 k
  accord : ∀ q, (k.proc q).Live → Accord (k.proc q)
  valid : ∀ q, (k.proc q).Live → q ≠ k.initproc → ValidInUse (k.proc q)

theorem Start.together (h : Start k) : Together k := by
  have hno : ∀ q, (k.proc q).Live → ∀ i < NMAP, ((k.proc q).mapEntries i).inUse = false := by
    intro q hq i hi
    rw [Bool.eq_false_iff]
    intro hu
    obtain ⟨hv, hlo, -⟩ := inUse_iff.mp hu
    rw [h.boot.entries q hq.1 i hi hv] at hlo
    exact absurd hlo (by decide)
  refine ⟨h.boot.sound, fun q hq => ?_, fun q hq hne i hi hv => ?_⟩
  · have hzero := h.index q hq
    have hpos : 0 < NMAP := by decide
    refine accord_of_none ?_ (fun x hlo hhi => ?_) (hzero ▸ hpos) fun i hi _ => hno q hq i hi
    · rintro i ⟨hle, hu⟩
      rw [hzero, Nat.le_zero] at hle
      rw [hno q hq i (hle ▸ hpos)] at hu
      cases hu
    · refine Option.eq_none_iff_forall_not_mem.mpr fun y hy => ?_
      exact h.boot.unmapped q hq.1 y (mem_mapped_of_pte hlo hhi hy)
  · rw [h.cleared q hq hne i hi] at hv
    cases hv

/-! ### What a call leaves alone -/

/-- The same records, pages and open files. -/
structure Alike (p p' : Proc) : Prop where
  entries : p'.mapEntries = p.mapEntries
  index : p'.currentMappingIndex = p.currentMappingIndex
  pte : p'.pgdir.pte = p.pgdir.pte
  ofile : p'.ofile = p.ofile

theorem Alike.refl (p : Proc) : Alike p p := ⟨rfl, rfl, rfl, rfl⟩

theorem Alike.accord {p p' : Proc} (h : Alike p p') (haccord : Accord p) : Accord p' :=
  haccord.congr h.entries h.index fun x _ _ => congrFun h.pte x

/-- **The rule for a call that changes one process.** -/
theorem Together.change (h : Together k) (c : Slot) (hsound : Sound 0 k') (hfixed : Fixed k k')
    (hothers : ∀ q, q ≠ c → (k'.proc q).Live → (k.proc q).Live ∧ Alike (k.proc q) (k'.proc q))
    (hself : (k'.proc c).Live → Accord (k'.proc c) ∧ (c ≠ k.initproc → ValidInUse (k'.proc c))) :
    Together k' := by
  refine ⟨hsound, fun q hq => ?_, fun q hq hne => ?_⟩
  · by_cases hqc : q = c
    · rw [hqc] at hq ⊢
      exact (hself hq).1
    · obtain ⟨hlive, halike⟩ := hothers q hqc hq
      exact halike.accord (h.accord q hlive)
  · rw [hfixed.1] at hne
    by_cases hqc : q = c
    · rw [hqc] at hq hne ⊢
      exact (hself hq).2 hne
    · obtain ⟨hlive, halike⟩ := hothers q hqc hq
      unfold ValidInUse
      rw [halike.entries]
      exact h.valid q hlive hne

/-- No process has changed in its records and pages. -/
theorem Together.same (h : Together k) (c : Slot) (hsound : Sound 0 k') (hfixed : Fixed k k')
    (hproc : k'.proc = k.proc) : Together k' := by
  refine h.change c hsound hfixed (fun q _ hq => ?_) fun hc => ?_
  · rw [hproc] at hq ⊢
    exact ⟨hq, .refl _⟩
  · rw [hproc] at hc ⊢
    exact ⟨h.accord c hc, h.valid c hc⟩

/-! ### `mmap` -/

/-- **An `mmap` that has found a place does not fail**, where it has its page tables and its file. -/
theorem Completes.done (h : Completes k c a va) (hplaced : Placed k c a va) :
    sys_mmap c a ext k ≠ .ok (k', none) := by
  intro hrun
  have hrun₁ := hrun
  rw [sys_mmap_eq_placed ext hplaced] at hrun₁
  obtain ⟨⟨d, fl, b⟩, hmap, h₂⟩ := bind_eq_ok hrun₁
  have hlen := hplaced.length_got
  have henough := h.tables
  have hb : b = true := mapPages_enough hmap (by
    rw [hlen, List.length_drop]
    omega)
  subst hb
  dsimp only at h₂
  rw [if_neg (by decide)] at h₂
  obtain ⟨⟨k₁, readOk⟩, hread, h₃⟩ := bind_eq_ok h₂
  have hfill' : Fillable (k.withDir c d fl k.mem) c a := by
    unfold Fillable
    rw [Kernel.withDir_self_proc]
    exact h.file
  obtain rfl := hfill'.read hread
  dsimp only at h₃
  rw [if_neg (by decide)] at h₃
  obtain ⟨k₂, -, h₄⟩ := bind_eq_ok h₃
  cases h₄

theorem Together.mmap (h : Together k) (hlive : (k.proc c).Live)
    (hdone : ∀ va, Placed k c a va → Completes k c a va) {r : Option ℕ}
    (hrun : sys_mmap c a ext k = .ok (k', r)) : Together k' := by
  have hsound := h.sound.mmap hlive hrun
  cases sys_mmap_exit hrun with
  | invalid _ => exact h
  | memory mem _ _ => exact h.same c hsound ⟨rfl, rfl⟩ rfl
  | place _ _ _ => exact h.same c hsound ⟨rfl, rfl⟩ rfl
  | guard _ _ _ _ _ => exact h.same c hsound ⟨rfl, rfl⟩ rfl
  | tables va _ _ hplaced _ _ _ => exact absurd hrun ((hdone va hplaced).done hplaced)
  | read va _ _ _ _ hplaced _ _ => exact absurd hrun ((hdone va hplaced).done hplaced)
  | done va d fl mem file hplaced hmapped hread hindex =>
    have hcompletes := hdone va hplaced
    have hfits := hplaced.fits hcompletes.pages
    have hlen := hplaced.length_got
    refine h.change c hsound ⟨rfl, rfl⟩ (fun q hq hlive' => ?_) fun _ => ?_
    · rw [Kernel.modify_of_ne _ hq] at hlive' ⊢
      exact ⟨hlive', .refl _⟩
    · rw [Kernel.modify_self]
      show Accord ((k.proc c).addRecord d (a.entry va a.pages)) ∧
        (c ≠ k.initproc → ValidInUse ((k.proc c).addRecord d (a.entry va a.pages)))
      refine ⟨(h.accord c hlive).add hfits hcompletes.entry fun x => ?_, fun hne i hi hv => ?_⟩
      · rw [hmapped.pte, hlen]
        by_cases hx : va ≤ x ∧ x < va + a.pages
        · rw [if_pos hx, List.getElem?_eq_getElem (by omega)]
          exact iff_of_true rfl (.inl hx)
        · rw [if_neg hx]
          exact (or_iff_right hx).symm
      · rw [Proc.addRecord_entry] at hv ⊢
        split
        · exact hfits.use
        · rename_i hi'
          rw [if_neg hi'] at hv
          exact h.valid c hlive hne i hi hv

/-! ### `munmap` -/

/-- The write-back of a mapping finds all its pages present. -/
theorem writeMapping_proc {b : Bool} (h : Mappings (k.proc c)) (hi : IsRecord (k.proc c) i)
    (hrun : writeMapping c ((k.proc c).mapEntries i) ((k.proc c).mapEntries i).startingVirtualAddress ext k =
      .ok (k', b)) : k'.proc = k.proc ∧ Fixed k k' := by
  refine writeMapping_keeps (P := fun k₁ => k₁.proc = k.proc ∧ Fixed k k₁)
    (S := ((k.proc c).mapEntries i).Covers) ?_ (fun _ _ _ hk => hk) (fun _ _ _ hk => hk)
    (fun x hlo hhi => ⟨hlo, hhi⟩) hrun ⟨rfl, rfl, rfl⟩
  intro x k₁ k₂ hx hgrow hk
  have hnone := cangrowup_pte hgrow
  have hsome := h.present i hi x hx
  rw [← hk.1, hnone] at hsome
  cases hsome

theorem Together.munmap (h : Together k) (hlive : (k.proc c).Live) {virtualAddress length : ℤ}
    (hmeets : ∀ i, findmappingmetadata (k.proc c) (pageOf virtualAddress) = some i →
      ((k.proc c).mapEntries i).inUse = true ∧ munmapPages length = ((k.proc c).mapEntries i).numPages)
    {b : Bool} (hrun : sys_munmap c virtualAddress length ext k = .ok (k', b)) : Together k' := by
  have hsound := h.sound.munmap hlive hrun
  have haccord := h.accord c hlive
  have hfind : ∀ i, Found k c virtualAddress i → IsRecord (k.proc c) i ∧
      munmapPages length = ((k.proc c).mapEntries i).numPages ∧
      pageOf virtualAddress = ((k.proc c).mapEntries i).startingVirtualAddress := by
    intro i hfound
    obtain ⟨hlt, -, hs⟩ := findmappingmetadata_some hfound.found
    obtain ⟨hu, hn⟩ := hmeets i hfound.found
    exact ⟨haccord.isRecord hlt hu, hn, hs.symm⟩
  cases sys_munmap_exit hrun with
  | misaligned _ => exact h
  | unknown _ _ => exact h
  | write i k₁ hfound hwrite =>
    obtain ⟨hi, -, hs⟩ := hfind i hfound
    rw [hs] at hwrite
    obtain ⟨hproc, hfixed⟩ := writeMapping_proc haccord.agree.mappings hi hwrite
    exact h.same c hsound hfixed hproc
  | clear i k₁ k₂ hfound hwrite hclear =>
    obtain ⟨hi, hn, hs⟩ := hfind i hfound
    rw [hs] at hwrite
    obtain ⟨hproc, -⟩ := writeMapping_proc haccord.agree.mappings hi hwrite
    obtain ⟨m, -, d, fl, mem, -, -, -, ⟨hb, -⟩ | ⟨-, hlt, hwalk⟩⟩ := clearPages_ok hclear
    · cases hb
    · -- the pages of the mapping have their page tables
      have hends := haccord.agree.within i hi
      have hcovers : ((k.proc c).mapEntries i).Covers (pageOf virtualAddress + m) := by
        rw [hs]
        exact ⟨Nat.le_add_right .., Nat.add_lt_add_left (hn ▸ hlt) _⟩
      obtain ⟨pa, hpa⟩ := Option.isSome_iff_exists.mp ((haccord.agree.present _
        ((inUse_iff.mp hi.2).2.1.trans hcovers.1) (hcovers.2.trans_le hends)).mpr ⟨i, hi, hcovers⟩)
      rw [hproc, walkpgdir_of_pte (hcovers.2.trans_le hends) hpa] at hwalk
      cases hwalk
  | done i k₁ k₂ hfound hwrite hclear =>
    obtain ⟨hi, hn, hs⟩ := hfind i hfound
    rw [hs] at hwrite
    obtain ⟨hproc, hfixed⟩ := writeMapping_proc haccord.agree.mappings hi hwrite
    obtain ⟨m, -, d, fl, mem, rfl, hcleared, -, ⟨-, rfl⟩ | ⟨hb, -⟩⟩ := clearPages_ok hclear
    · have hdrop : ((k₁.withDir c d fl mem).withEntry c i .unused).proc c = (k.proc c).dropRecord i d := by
        rw [Kernel.withEntry, Kernel.modify_self, Kernel.withDir_self_proc, hproc]
        rfl
      refine h.change c hsound hfixed (fun q hq hlive' => ?_) fun _ => ?_
      · rw [Kernel.withEntry, Kernel.modify_of_ne _ hq, Kernel.withDir_proc_of_ne _ _ _ _ _ hq, hproc]
          at hlive' ⊢
        exact ⟨hlive', .refl _⟩
      · rw [hdrop]
        refine ⟨haccord.remove hi fun x => ?_, fun hne j hj hv => ?_⟩
        · rw [hcleared.pte, hproc, hn, hs]
          unfold MapEntry.Covers MapEntry.next
          split
          · rename_i hx
            exact iff_of_false Bool.false_ne_true fun hand => hand.2 hx
          · rename_i hx
            exact (and_iff_left hx).symm
        · rw [Proc.dropRecord_entry] at hv ⊢
          split
          · rename_i hj'
            rw [if_pos hj'] at hv
            cases hv
          · rename_i hj'
            rw [if_neg hj'] at hv
            exact h.valid c hlive hne j hj hv
    · cases hb

/-! ### `exit`, `wait` and the page fault -/

theorem closeFiles_others (hq : q ≠ c) (fds : List ℕ) :
    (closeFiles c fds k).proc q = k.proc q ∧ Fixed k (closeFiles c fds k) := by
  induction fds generalizing k with
  | nil => exact ⟨rfl, rfl, rfl⟩
  | cons fd fds ih =>
    unfold closeFiles at ih ⊢
    rw [List.foldl_cons]
    cases (k.proc c).ofile fd with
    | none => exact ih
    | some f =>
      obtain ⟨hproc, hfixed⟩ := @ih (fileclose f (setOfile c fd none k))
      have hset : (setOfile c fd none k).proc q = k.proc q :=
        Kernel.modify_of_ne k hq fun p => { p with ofile := Function.update p.ofile fd none }
      have hclose : (fileclose f (setOfile c fd none k)).proc q = k.proc q ∧
          Fixed k (fileclose f (setOfile c fd none k)) := by
        unfold fileclose
        dsimp only
        split
        · exact ⟨hset, rfl, rfl⟩
        · exact ⟨hset, rfl, rfl⟩
      exact ⟨hproc.trans hclose.1, hclose.2.trans hfixed⟩

theorem clearMappings_others (hq : q ≠ c) {vas : List ℕ} (hrun : clearMappings c vas k = .ok k') :
    k'.proc q = k.proc q ∧ Fixed k k' := by
  induction vas generalizing k with
  | nil =>
    cases hrun
    exact ⟨rfl, rfl, rfl⟩
  | cons va vas ih =>
    unfold clearMappings at hrun
    split at hrun
    · obtain ⟨⟨k₁, b⟩, h₁, h₂⟩ := bind_eq_ok hrun
      obtain ⟨-, rfl, -⟩ | ⟨pte, fl, mem, -, -, rfl, -⟩ := clearpte_ok h₁
      · exact ih h₂
      · obtain ⟨hproc, hfixed⟩ := ih h₂
        rw [Kernel.withDir_proc_of_ne _ _ _ _ _ hq] at hproc
        exact ⟨hproc, hfixed⟩
    · exact ih hrun

/-- **`exit`** leaves a zombie, and the other processes as they were but for their parent. -/
theorem exit_others (hrun : exit c k = .ok k') : (k'.proc c).state = .ZOMBIE ∧ Fixed k k' ∧
    ∀ q, q ≠ c → (k'.proc q).state = (k.proc q).state ∧ Alike (k.proc q) (k'.proc q) := by
  unfold exit at hrun
  split at hrun
  · cases hrun
  · rename_i hne
    obtain ⟨k₁, h₁, h₂⟩ := bind_eq_ok hrun
    cases h₂
    have hfixed := (closeFiles_others (k := k) (Ne.symm hne) (List.range NOFILE)).2.trans
      (clearMappings_others (Ne.symm hne) h₁).2
    refine ⟨?_, hfixed, fun q hq => ?_⟩
    · dsimp only
      rw [if_pos rfl]
    · have hproc : k₁.proc q = k.proc q :=
        (clearMappings_others hq h₁).1.trans (closeFiles_others hq (List.range NOFILE)).1
      dsimp only
      rw [if_neg hq]
      split
      · rw [hproc]
        exact ⟨rfl, rfl, rfl, rfl, rfl⟩
      · rw [hproc]
        exact ⟨rfl, .refl _⟩

theorem Together.exit (h : Together k) (hlive : (k.proc c).Live) (hrun : exit c k = .ok k') : Together k' := by
  obtain ⟨hzombie, hfixed, hothers⟩ := exit_others hrun
  refine h.change c (h.sound.exit hlive hrun) hfixed (fun q hq hlive' => ?_)
    fun hlive' => absurd hzombie hlive'.2
  obtain ⟨hstate, halike⟩ := hothers q hq
  unfold Proc.Live at hlive' ⊢
  rw [hstate] at hlive'
  exact ⟨hlive', halike⟩

theorem wait_fixed {r : Option Slot} (hrun : wait c k = .ok (k', r)) : Fixed k k' := by
  unfold wait at hrun
  split at hrun
  · cases hrun
    exact ⟨rfl, rfl⟩
  · obtain ⟨k₁, h₁, h₂⟩ := bind_eq_ok hrun
    obtain ⟨k₂, h₃, h₄⟩ := bind_eq_ok h₂
    cases h₄
    obtain ⟨-, mem, hk₁⟩ := kfree_ok h₁
    obtain ⟨-, mem', hk₂⟩ := kfreeAll_ok h₃
    refine ⟨?_, ?_⟩
    · show k₂.initproc = _
      rw [hk₂, hk₁]
    · show k₂.kernelEnd = _
      rw [hk₂, hk₁]

theorem Together.wait (h : Together k) {r : Option Slot} (hrun : wait c k = .ok (k', r)) : Together k' := by
  have hsound := h.sound.wait hrun
  have hfixed := wait_fixed hrun
  cases r with
  | none =>
    unfold Vm.wait at hrun
    split at hrun
    · cases hrun
      exact h
    · obtain ⟨k₁, -, h₂⟩ := bind_eq_ok hrun
      obtain ⟨k₂, -, h₄⟩ := bind_eq_ok h₂
      cases h₄
  | some p =>
    obtain ⟨-, -, -, hother, hunused⟩ := h.sound.wait_frees hrun
    refine h.change p hsound hfixed (fun q hq hlive' => ?_) fun hlive' => absurd hunused hlive'.1
    rw [hother q hq] at hlive' ⊢
    exact ⟨hlive', .refl _⟩

theorem Together.grow (h : Together k) (hlive : (k.proc c).Live) (hrun : cangrowup c va k = .ok (k', true)) :
    Together k' := by
  have hsound := h.sound.grow hlive hrun
  have haccord := h.accord c hlive
  obtain ⟨hb, -⟩ | ⟨i, hi, hg, pa, fl, -, ⟨hb, -⟩ | ⟨-, -, -, -, d, fl', hmapped, rfl⟩⟩ := cangrowup_ok hrun
  · cases hb
  · cases hb
  · obtain ⟨hu, hgrows, hva, hnext⟩ := growsInto_iff.mp hg
    change va = ((k.proc c).mapEntries i).next at hva
    have hgrown : ((k.withDir c d fl' k.mem).withEntry c i ((k.proc c).mapEntries i).grown).proc c =
        (k.proc c).grow i d := by
      rw [Kernel.withEntry, Kernel.modify_self, Kernel.withDir_self_proc]
      rfl
    have hfree : FreeAt (k.proc c) (((k.proc c).mapEntries i).next + 1) :=
      hva ▸ (canallocatva_iff (n := 1)).mp hnext 0 Nat.one_pos
    refine h.change c hsound ⟨rfl, rfl⟩ (fun q hq hlive' => ?_) fun _ => ?_
    · rw [Kernel.withEntry, Kernel.modify_of_ne _ hq, Kernel.withDir_proc_of_ne _ _ _ _ _ hq] at hlive' ⊢
      exact ⟨hlive', .refl _⟩
    · rw [hgrown]
      refine ⟨haccord.grow ⟨hi, hu⟩ hgrows hfree pa fun x => ?_, fun hne j hj hv => ?_⟩
      · rw [hmapped.pte, List.length_singleton, ← hva]
        by_cases hx : x = va
        · rw [if_pos (by omega), if_pos hx, hx, Nat.sub_self]
          rfl
        · rw [if_neg (by omega), if_neg hx]
      · rw [Proc.grow_entry] at hv ⊢
        split
        · exact hu
        · rename_i hj'
          rw [if_neg hj'] at hv
          exact h.valid c hlive hne j hj hv

/-- Growth that fails takes at most what is left of the free list. -/
theorem cangrowup_proc (hrun : cangrowup c va k = .ok (k', false)) :
    k'.proc = k.proc ∧ Fixed k k' := by
  obtain ⟨-, rfl⟩ | ⟨i, -, -, pa, fl, -, ⟨-, -, rfl⟩ | ⟨hb, -⟩⟩ := cangrowup_ok hrun
  · exact ⟨rfl, rfl, rfl⟩
  · refine ⟨funext fun q => ?_, rfl, rfl⟩
    by_cases hq : q = c
    · rw [hq, Kernel.withDir_self_proc]
    · rw [Kernel.withDir_proc_of_ne _ _ _ _ _ hq]
  · cases hb

theorem Together.fault (h : Together k) (hlive : (k.proc c).Live) (hrun : pagefault c va k = .ok k') :
    Together k' := by
  obtain ⟨⟨k₁, grown⟩, h₁, h₂⟩ := bind_eq_ok hrun
  cases grown with
  | true =>
    cases h₂
    exact h.grow hlive h₁
  | false =>
    obtain ⟨hproc, hfixed⟩ := cangrowup_proc h₁
    refine (h.same c (h.sound.grow hlive h₁) hfixed hproc).exit ?_ h₂
    rw [hproc]
    exact hlive

/-! ### `fork` -/

/-- When the copy is completed, all processes but the child are as before. -/
theorem inherited_others {np : Slot} {pid : ℕ} {k₀ : Kernel} (hforked : Forked c np pid k k₀)
    (hall : Inherited c np k₀ (records (k.proc c)) k') (hlive : (k.proc c).Live) :
    Fixed k k' ∧ np ≠ c ∧ ∀ q, q ≠ np → (k'.proc q).Live → (k.proc q).Live ∧ Alike (k.proc q) (k'.proc q) := by
  have hne : np ≠ c := by
    rintro rfl
    exact hlive.1 hforked.unused
  obtain ⟨fl, mem, proc, hk'⟩ := hall.rest
  obtain ⟨e, hproc, hpte⟩ := hall.parent
  rw [hforked.others c hne.symm] at hproc hpte
  refine ⟨⟨?_, ?_⟩, hne, fun q hq hlive' => ?_⟩
  · rw [hk']
    exact hforked.initproc
  · rw [hk']
    exact hforked.kernelEnd
  · by_cases hqc : q = c
    · rw [hqc, hproc]
      exact ⟨hlive, rfl, rfl, hpte, rfl⟩
    · rw [hall.others q hqc hq, hforked.others q hq] at hlive' ⊢
      exact ⟨hlive', .refl _⟩

/-- **The parent is as before, and its child has its records and pages.** -/
theorem Together.fork (h : Together k) (hlive : (k.proc c).Live) (hroom : ForkRoom k c) {r : Option (Slot × ℕ)}
    (hrun : fork c k = .ok (k', r)) : Together k' := by
  have hsound := h.sound.fork hlive hrun
  have hapart := h.sound.freeApart hlive.1
  have haccord := h.accord c hlive
  cases r with
  | none =>
    obtain ⟨hfixed, hsame⟩ := fork_none hlive.1 hapart.below hrun
    refine h.change c hsound hfixed (fun q _ hlive' => ?_) fun hlive' => ?_
    · have he := hsame q hlive'.1
      rw [he] at hlive' ⊢
      exact ⟨hlive', .refl _⟩
    · rw [hsame c hlive'.1]
      exact ⟨haccord, h.valid c hlive⟩
  | some r =>
    obtain ⟨np, pid⟩ := r
    obtain ⟨k₀, hforked, hall⟩ := fork_inherits hapart hlive haccord.agree.mappings hroom hrun
    obtain ⟨hfixed, hne, hothers⟩ := inherited_others hforked hall hlive
    refine h.change np hsound hfixed hothers fun _ => ?_
    refine ⟨hall.accord hforked hne haccord.settled hapart.below, fun _ i hi hv => ?_⟩
    obtain ⟨kstack, d, hchild, -⟩ := hforked.child
    rw [hall.entries, hchild, forChild_unused _ _ _ _ _ hi] at hv ⊢
    cases hrecord : (records (k.proc c))[i]? with
    | none =>
      rw [hrecord] at hv
      cases hv
    | some m => exact records_inUse (List.mem_of_getElem? hrecord)

/-! ### The run -/

theorem Together.step {call : Slot × Call} (h : Together k) (hok : InStep k call)
    (hstep : step k call k') : Together k' := by
  obtain ⟨c, call⟩ := call
  obtain ⟨hlive, hcond⟩ := hok
  cases call with
  | mmap a ext =>
    obtain ⟨r, hrun⟩ := map_fst_ok hstep
    exact h.mmap hlive hcond hrun
  | munmap virtualAddress length ext =>
    obtain ⟨r, hrun⟩ := map_fst_ok hstep
    exact h.munmap hlive hcond hrun
  | sbrk n => exact hcond.elim
  | fork =>
    obtain ⟨r, hrun⟩ := map_fst_ok hstep
    exact h.fork hlive hcond hrun
  | exec program => exact hcond.elim
  | exit => exact h.exit hlive hstep
  | wait =>
    obtain ⟨r, hrun⟩ := map_fst_ok hstep
    exact h.wait hrun
  | fault va => exact h.fault hlive hstep

/-- **In every state reached**, the records and the page table of every process agree, and every valid entry is
a record, but for those of the first process that `allocproc` has left all zero. -/
theorem records_agree (h : Reach Start step InStep k) (q : Slot) (hq : (k.proc q).Live) :
    RecordsAgree (k.proc q) ∧ (q ≠ k.initproc → ValidInUse (k.proc q)) := by
  have htogether : Together k :=
    h.invariant (fun _ hs => hs.together) fun _ _ _ hs hg hstep => hs.step hg hstep
  exact ⟨recordsAgree_of_accord (htogether.accord q hq), htogether.valid q hq⟩

/-! ### A mapping of two pages -/

theorem stocked_start {s : ℕ} (hs : s ≤ 1000) : Start (stocked s) := by
  refine ⟨stocked_boot hs, fun _ _ => rfl, fun q _ hne i _ => ?_⟩
  change q ≠ 1 at hne
  show MapEntry.isValid (if q = 1 then _ else _) = false
  rw [if_neg hne]
  rfl

/-- The first process has unmapped the first page, and the record of the second one is gone too. -/
theorem munmap_leaves_page : ∃ k₁ k₂, Start (stocked 150) ∧
    sys_mmap 0 (commonPages 2) Records.quiet (stocked 150) = .ok (k₁, some MMAPBASE) ∧
    sys_munmap 0 0x60000000 4096 Records.quiet k₁ = .ok (k₂, true) ∧
    (k₂.proc 0).pgdir.pte (MMAPBASE + 1) = some 501 ∧ ¬RecordsAgree (k₂.proc 0) := by
  obtain ⟨k, hmmap, hsingle, hreach⟩ := stocked_mmap (s := 150) commonPages_lowest (by decide) (by decide)
    (by decide)
  have hn : munmapPages 4096 = 1 := by decide
  have hends : pageOf 0x60000000 + munmapPages 4096 ≤ KERNBASE := by decide
  have hwritten : writeMapping 0 ((k.proc 0).mapEntries 0) (pageOf 0x60000000) Records.quiet k =
      .ok (k, true) := by
    rw [hsingle.entries]
    exact if_pos (by decide)
  obtain ⟨k₂, hclear, hmunmap⟩ := sys_munmap_succeeds hsingle.found hwritten hends (by
    intro j hj
    rw [hn] at hj
    refine ⟨500 + j, hsingle.page (by omega) (by decide), ?_⟩
    show k.kernelEnd ≤ 500 + j ∧ 500 + j < 57344
    rw [hsingle.kernelEnd]
    show 256 ≤ 500 + j ∧ 500 + j < 57344
    omega)
  obtain ⟨m, -, d, fl, mem, rfl, hcleared, -, ⟨-, rfl⟩ | ⟨hb, -⟩⟩ := clearPages_ok hclear
  · have hdrop : ((k.withDir 0 d fl mem).withEntry 0 0 .unused).proc 0 = (k.proc 0).dropRecord 0 d := by
      rw [Kernel.withEntry, Kernel.modify_self, Kernel.withDir_self_proc]
      rfl
    have hpage : d.pte (MMAPBASE + 1) = some 501 := by
      rw [hcleared.pte, hn, if_neg (by decide)]
      exact hsingle.page (by decide) (by decide)
    refine ⟨k, _, stocked_start (by decide), hmmap, hmunmap, ?_, fun hgood => ?_⟩
    · rw [hdrop]
      exact hpage
    · rw [hdrop] at hgood
      obtain ⟨i, ⟨-, hu, -⟩, -⟩ := hgood.owned (MMAPBASE + 1) (by decide) (by decide) (by
        show (d.pte (MMAPBASE + 1)).isSome
        rw [hpage]
        rfl)
      rw [Proc.dropRecord_entry] at hu
      split at hu
      · cases hu
      · rename_i hi
        rw [hsingle.entries, if_neg hi] at hu
        cases hu
  · cases hb

/-- The child unmaps both pages, and its parent keeps them. -/
theorem records_agree_child : ∃ k, Reach Start step InStep k ∧
    (k.proc 2).pgdir.pte MMAPBASE = none ∧ RecordsAgree (k.proc 2) ∧ ValidInUse (k.proc 2) ∧
    (k.proc 0).pgdir.pte MMAPBASE = some 500 ∧ RecordsAgree (k.proc 0) := by
  obtain ⟨k₁, k, hmmap, hsingle, hfork, hcommon⟩ := common_fork
  obtain ⟨hfound, hn, k₂, hmunmap, hinit, hother, hlive, hpte, -⟩ := hcommon.munmap
  have hmmapStep : step (stocked 150) (0, .mmap (commonPages 2) Records.quiet) k₁ := map_fst_of_ok hmmap
  have hforkStep : step k₁ (0, .fork) k := map_fst_of_ok hfork
  have hmunmapStep : step k (2, .munmap 0x60000000 8192 Records.quiet) k₂ := map_fst_of_ok hmunmap
  have hcompletes : InStep (stocked 150) (0, .mmap (commonPages 2) Records.quiet) := by
    refine ⟨stocked_live 150, fun va _ => ⟨by decide, by decide, .inl (by decide), ?_⟩⟩
    have htables : (missingTables ((stocked 150).proc 0).pgdir.table va 2).card ≤ 2 :=
      (Finset.card_filter_le ..).trans (Finset.card_image_le.trans (Finset.card_range 2).le)
    show 2 + _ ≤ (List.range' 500 150).length
    rw [List.length_range']
    exact (Nat.add_le_add_left htables 2).trans (by decide)
  have hwhole : InStep k (2, .munmap 0x60000000 8192 Records.quiet) := by
    refine ⟨hcommon.live.2, fun i hi => ?_⟩
    rw [hfound.found] at hi
    cases hi
    rw [hn, hcommon.entry.2]
    exact ⟨hcommon.entry.2 ▸ hcommon.entry.1.2, rfl⟩
  have hreach : Reach Start step InStep k₂ :=
    (((Reach.start (stocked_start (by decide))).next hcompletes hmmapStep).next
      ⟨hsingle.live, hsingle.forkRoom commonPages_lowest (by decide)⟩ hforkStep).next hwhole hmunmapStep
  obtain ⟨hchild, hvalid⟩ := records_agree hreach 2 hlive
  have hparent := (records_agree hreach 0 (hother ▸ hcommon.live.1)).1
  refine ⟨k₂, hreach, hpte MMAPBASE, hchild, hvalid ?_, ?_, hparent⟩
  · rw [hinit, hcommon.initproc]
    decide
  · rw [hother]
    exact hcommon.parent 0 (by decide)

end OperatingSystems.Vm.Lifetimes
