import Mathlib
import OperatingSystems.Vm.Accords

/-!
# Calls that keep what they rely on

The system calls take for granted that the pages of a mapping are there, that they are memory, and that the
file of a mapping is open.  A call with bad arguments ends that: `munmap` with more pages than the mapping has
takes those of its neighbour, `mmap` stores a descriptor that it has not looked at, and a mapping that grows
without memory gets a page that is none.

* **`Ready`** — what the calls of a process rely on.
* **`Careful`** — a call that keeps it, **`steady_of_reach`**: so it is there in every state reached.
-/

namespace OperatingSystems.Vm.Lifetimes

open Outcomes Custody GuardedRuns

variable {k k' k₁ k₂ : Kernel} {c q : Slot} {va n i : ℕ} {a : MmapArgs} {ext : External} {F : ℕ → Prop}
  {p p' : Proc} {d : PgDir}

/-- **What the calls of a process rely on**: its mappings have their pages, all that it maps is memory, and the
files of its mappings are open. -/
structure Ready (F : ℕ → Prop) (p : Proc) : Prop where
  settled : Settled p
  memory : ∀ x ∈ p.pgdir.mapped, F x
  files : ∀ i, IsRecord p i → has (p.mapEntries i).flags MAP_ANONYMOUS = false → Opens p (p.mapEntries i).fd

/-- What the run keeps. -/
structure Steady (k : Kernel) : Prop where
  sound : Sound 0 k
  ready : ∀ q, (k.proc q).Live → Ready k.Freeable (k.proc q)

/-! ### The calls -/

/-- **An `mmap` that has found its place can be made**: it asks for at least a page, finds an entry, and its
file is open. -/
structure Makes (k : Kernel) (c : Slot) (a : MmapArgs) : Prop where
  pages : 0 < a.pages
  entry : (k.proc c).currentMappingIndex + 1 < NMAP
  file : has a.flags MAP_ANONYMOUS = false → Opens (k.proc c) a.fd

/-- **The call does not take the kernel down.**  An `mmap` that finds its place can be made; a `munmap` that
finds a record names a mapping, and no more pages than it has; `fork` has room for the copies; and a page fault
that makes a mapping grow finds a page. -/
def Careful (k : Kernel) (call : Slot × Call) : Prop :=
  (k.proc call.1).Live ∧
    match call.2 with
    | .mmap a _ => (a.valid = true → 0 ≤ pagesOf a.length) ∧ ∀ va, Placed k call.1 a va → Makes k call.1 a
    | .munmap virtualAddress length _ =>
      ∀ i, findmappingmetadata (k.proc call.1) (pageOf virtualAddress) = some i →
        ((k.proc call.1).mapEntries i).inUse = true ∧
          munmapPages length ≤ ((k.proc call.1).mapEntries i).numPages
    | .fork => ForkRoom k call.1
    | .fault va => CanGrow (k.proc call.1) va → k.freelist ≠ []
    | .exit => True
    | .wait => True
    | _ => False

/-! ### What a call leaves alone -/

theorem Alike.ready (h : Alike p p') (hready : Ready F p) : Ready F p' := by
  refine ⟨hready.settled.congr h.entries h.index h.pte, ?_, fun i hi hanon => ?_⟩
  · unfold PgDir.mapped
    rw [h.pte]
    exact hready.memory
  · unfold IsRecord at hi
    rw [h.entries, h.index] at hi
    rw [h.entries] at hanon ⊢
    unfold Opens
    rw [h.ofile]
    exact hready.files i hi hanon

/-- **The rule for a call that changes one process.** -/
theorem Steady.change (h : Steady k) (c : Slot) (hsound : Sound 0 k') (hfixed : Fixed k k')
    (hothers : ∀ q, q ≠ c → (k'.proc q).Live → (k.proc q).Live ∧ Alike (k.proc q) (k'.proc q))
    (hself : (k'.proc c).Live → Ready k.Freeable (k'.proc c)) : Steady k' := by
  refine ⟨hsound, fun q hq => ?_⟩
  rw [hfixed.freeable]
  by_cases hqc : q = c
  · rw [hqc] at hq ⊢
    exact hself hq
  · obtain ⟨hlive, halike⟩ := hothers q hqc hq
    exact halike.ready (h.ready q hlive)

/-- No process has changed. -/
theorem Steady.same (h : Steady k) (hsound : Sound 0 k') (hfixed : Fixed k k') (hproc : k'.proc = k.proc) :
    Steady k' := by
  refine ⟨hsound, fun q hq => ?_⟩
  rw [hproc] at hq ⊢
  rw [hfixed.freeable]
  exact h.ready q hq

theorem Start.steady (h : Start k) : Steady k := by
  have htogether := h.together
  refine ⟨htogether.sound, fun q hq => ⟨(htogether.accord q hq).settled, fun x hx => ?_, fun i hi => ?_⟩⟩
  · exact absurd hx (h.boot.unmapped q hq.1 x)
  · have hlt := (htogether.accord q hq).lt hi
    rw [h.index q hq] at hlt
    cases hlt

/-! ### `mmap` -/

/-- New pages at free addresses. -/
theorem Ready.more {va : ℕ} {ps fl fl' : List ℕ} (h : Ready F p) (hmapped : Mapped p.pgdir d va ps fl fl')
    (hps : ∀ x ∈ ps, F x) (hfree : ∀ x, va ≤ x → x < va + ps.length → FreeAt p x) :
    Ready F { p with pgdir := d } := by
  refine ⟨h.settled.more rfl rfl (fun x hx => ?_) fun x hx => ?_, ?_, h.files⟩
  · show (d.pte x).isSome = true
    rw [hmapped.pte]
    split
    · rw [List.getElem?_eq_getElem (by omega)]
      rfl
    · exact hx
  · change (d.pte x).isSome = true at hx
    rw [hmapped.pte] at hx
    split at hx
    · rename_i hin
      exact .inr (hfree x hin.1 hin.2)
    · exact .inl hx
  · rintro x ⟨i, hi, hpte⟩
    change d.pte _ = some x at hpte
    rw [hmapped.pte] at hpte
    split at hpte
    · exact hps x (List.mem_of_getElem? hpte)
    · exact h.memory x ⟨i, hi, hpte⟩

theorem Steady.mmap (h : Steady k) (hlive : (k.proc c).Live) (hmakes : ∀ va, Placed k c a va → Makes k c a)
    {r : Option ℕ} (hrun : sys_mmap c a ext k = .ok (k', r)) : Steady k' := by
  have hsound := h.sound.mmap hlive hrun
  have hready := h.ready c hlive
  have hfree : ∀ x ∈ a.got k, k.Freeable x :=
    fun x hx => h.sound.freeable x (mem_kept_free (List.mem_of_mem_take hx))
  -- an `mmap` that fails once it has mapped pages
  have hfailed : ∀ {va fl mem file d} {ps fl' : List ℕ}, Placed k c a va →
      Mapped (k.proc c).pgdir d va ps (k.freelist.drop a.pages) fl' → ps <+: a.got k →
      Sound 0 { k.withDir c d fl mem with file := file } → Steady { k.withDir c d fl mem with file := file } := by
    intro va fl mem file d ps fl' hplaced hmapped hps hsound'
    have hlen := hps.length_le
    rw [hplaced.length_got] at hlen
    refine h.change c hsound' ⟨rfl, rfl⟩ (fun q hq hlive' => ?_) fun _ => ?_
    · change ((k.withDir c d fl mem).proc q).Live at hlive'
      show _ ∧ Alike (k.proc q) ((k.withDir c d fl mem).proc q)
      rw [Kernel.withDir_proc_of_ne _ _ _ _ _ hq] at hlive' ⊢
      exact ⟨hlive', .refl _⟩
    · show Ready k.Freeable ((k.withDir c d fl mem).proc c)
      rw [Kernel.withDir_self_proc]
      exact hready.more hmapped (fun x hx => hfree x (hps.subset hx))
        fun x hlo hhi => hplaced.free hlo (by omega)
  cases sys_mmap_exit hrun with
  | invalid _ => exact h
  | memory mem _ _ => exact h.same hsound ⟨rfl, rfl⟩ rfl
  | place _ _ _ => exact h.same hsound ⟨rfl, rfl⟩ rfl
  | guard _ _ _ _ _ => exact h.same hsound ⟨rfl, rfl⟩ rfl
  | tables va m d hplaced _ hmapped _ => exact hfailed hplaced hmapped (List.take_prefix ..) hsound
  | read va d fl mem file hplaced hmapped _ => exact hfailed hplaced hmapped (List.prefix_refl _) hsound
  | done va d fl mem file hplaced hmapped hread hindex =>
    have hcan := hmakes va hplaced
    have hfits := hplaced.fits hcan.pages
    have hlen := hplaced.length_got
    refine h.change c hsound ⟨rfl, rfl⟩ (fun q hq hlive' => ?_) fun _ => ?_
    · rw [Kernel.modify_of_ne _ hq] at hlive' ⊢
      exact ⟨hlive', .refl _⟩
    · rw [Kernel.modify_self]
      show Ready k.Freeable ((k.proc c).addRecord d (a.entry va a.pages))
      have hpages : ∀ x, (d.pte x).isSome ↔ (a.entry va a.pages).Covers x ∨ ((k.proc c).pgdir.pte x).isSome := by
        intro x
        rw [hmapped.pte, hlen]
        by_cases hx : va ≤ x ∧ x < va + a.pages
        · rw [if_pos hx, List.getElem?_eq_getElem (by omega)]
          exact iff_of_true rfl (.inl hx)
        · rw [if_neg hx]
          exact (or_iff_right hx).symm
      refine ⟨hready.settled.add hfits hcan.entry hpages, ?_, fun j hj hanon => ?_⟩
      · have hmore := hready.more hmapped hfree fun x hlo hhi => hplaced.free hlo (by omega)
        exact hmore.memory
      · obtain ⟨e, he⟩ := hready.settled.records
        have hrecord := (he.isRecord_add (d := d) hcan.entry hfits.use j).mp hj
        rw [Proc.addRecord_entry] at hanon ⊢
        show Opens (k.proc c) _
        split
        · rename_i hj'
          rw [if_pos hj'] at hanon
          exact hcan.file hanon
        · rename_i hj'
          rw [if_neg hj'] at hanon
          exact hready.files j (hrecord.resolve_right hj') hanon

/-! ### `munmap` -/

/-- What `munmap` has found. -/
theorem Found.record {virtualAddress : ℤ} (hfound : Found k c virtualAddress i) (h : Settled (k.proc c))
    (hu : ((k.proc c).mapEntries i).inUse = true) : IsRecord (k.proc c) i ∧
      ((k.proc c).mapEntries i).startingVirtualAddress = pageOf virtualAddress := by
  obtain ⟨hlt, -, hs⟩ := findmappingmetadata_some hfound.found
  exact ⟨h.isRecord hlt hu, hs⟩

theorem Steady.munmap (h : Steady k) (hlive : (k.proc c).Live) {virtualAddress length : ℤ}
    (hmeets : ∀ i, findmappingmetadata (k.proc c) (pageOf virtualAddress) = some i →
      ((k.proc c).mapEntries i).inUse = true ∧ munmapPages length ≤ ((k.proc c).mapEntries i).numPages)
    {b : Bool} (hrun : sys_munmap c virtualAddress length ext k = .ok (k', b)) : Steady k' := by
  have hsound := h.sound.munmap hlive hrun
  have hready := h.ready c hlive
  have hmappings := hready.settled.mappings
  cases sys_munmap_exit hrun with
  | misaligned _ => exact h
  | unknown _ _ => exact h
  | write i k₁ hfound hwrite =>
    obtain ⟨hi, hs⟩ := Found.record hfound hready.settled (hmeets i hfound.found).1
    rw [← hs] at hwrite
    obtain ⟨hproc, hfixed⟩ := writeMapping_proc hmappings hi hwrite
    exact h.same hsound hfixed hproc
  | clear i k₁ k₂ hfound hwrite hclear =>
    obtain ⟨hu, hn⟩ := hmeets i hfound.found
    obtain ⟨hi, hs⟩ := Found.record hfound hready.settled hu
    rw [← hs] at hwrite hclear
    obtain ⟨hproc, -⟩ := writeMapping_proc hmappings hi hwrite
    obtain ⟨m, -, d, fl, mem, -, -, -, ⟨hb, -⟩ | ⟨-, hlt, hwalk⟩⟩ := clearPages_ok hclear
    · cases hb
    · -- the pages of the mapping have their page tables
      have hcovers : ((k.proc c).mapEntries i).Covers (((k.proc c).mapEntries i).startingVirtualAddress + m) :=
        ⟨Nat.le_add_right .., Nat.add_lt_add_left (hlt.trans_le hn) _⟩
      obtain ⟨pa, hpa⟩ := Option.isSome_iff_exists.mp (hmappings.present i hi _ hcovers)
      rw [hproc, walkpgdir_of_pte (hcovers.2.trans_le (hmappings.within i hi)) hpa] at hwalk
      cases hwalk
  | done i k₁ k₂ hfound hwrite hclear =>
    obtain ⟨hu, hn⟩ := hmeets i hfound.found
    obtain ⟨hi, hs⟩ := Found.record hfound hready.settled hu
    rw [← hs] at hwrite hclear
    obtain ⟨hproc, hfixed⟩ := writeMapping_proc hmappings hi hwrite
    obtain ⟨m, hm, d, fl, mem, rfl, hcleared, -, ⟨-, -⟩ | ⟨hb, -⟩⟩ := clearPages_ok hclear
    · have hdrop : ((k₁.withDir c d fl mem).withEntry c i .unused).proc c = (k.proc c).dropRecord i d := by
        rw [Kernel.withEntry, Kernel.modify_self, Kernel.withDir_self_proc, hproc]
        rfl
      rw [hproc] at hcleared
      have hgone : ∀ x pa, d.pte x = some pa → (k.proc c).pgdir.pte x = some pa := by
        intro x pa hpte
        rw [hcleared.pte] at hpte
        split at hpte
        · cases hpte
        · exact hpte
      refine h.change c hsound hfixed (fun q hq hlive' => ?_) fun _ => ?_
      · rw [Kernel.withEntry, Kernel.modify_of_ne _ hq, Kernel.withDir_proc_of_ne _ _ _ _ _ hq, hproc]
          at hlive' ⊢
        exact ⟨hlive', .refl _⟩
      · rw [hdrop]
        refine ⟨hready.settled.drop hi (fun x hx => ?_) fun x hx hwas => ?_, ?_, fun j hj hanon => ?_⟩
        · obtain ⟨pa, hpa⟩ := Option.isSome_iff_exists.mp hx
          rw [hgone x pa hpa]
          rfl
        · rw [hcleared.pte, if_neg fun hin => hx ⟨hin.1, ?_⟩]
          · exact hwas
          · exact hin.2.trans_le (Nat.add_le_add_left (hm.trans hn) _)
        · rintro x ⟨j, hj, hpte⟩
          exact hready.memory x ⟨j, hj, hgone _ x hpte⟩
        · obtain ⟨hj, hne⟩ := (isRecord_drop d j).mp hj
          rw [Proc.dropRecord_entry, if_neg hne] at hanon ⊢
          exact hready.files j hj hanon
    · cases hb

/-! ### `exit`, `wait` and the page fault -/

theorem Steady.exit (h : Steady k) (hlive : (k.proc c).Live) (hrun : exit c k = .ok k') : Steady k' := by
  obtain ⟨hzombie, hfixed, hothers⟩ := exit_others hrun
  refine h.change c (h.sound.exit hlive hrun) hfixed (fun q hq hlive' => ?_)
    fun hlive' => absurd hzombie hlive'.2
  obtain ⟨hstate, halike⟩ := hothers q hq
  unfold Proc.Live at hlive' ⊢
  rw [hstate] at hlive'
  exact ⟨hlive', halike⟩

theorem Steady.wait (h : Steady k) {r : Option Slot} (hrun : wait c k = .ok (k', r)) : Steady k' := by
  have hsound := h.sound.wait hrun
  have hfixed := wait_fixed hrun
  cases r with
  | none =>
    unfold Vm.wait at hrun
    split at hrun
    · cases hrun
      exact h
    · obtain ⟨k₁, -, h₂⟩ := bind_eq_ok hrun
      obtain ⟨k₂, -, h₄⟩ := bind_eq_ok h₂
      cases h₄
  | some p =>
    obtain ⟨-, -, -, hother, hunused⟩ := h.sound.wait_frees hrun
    refine h.change p hsound hfixed (fun q hq hlive' => ?_) fun hlive' => absurd hunused hlive'.1
    rw [hother q hq] at hlive' ⊢
    exact ⟨hlive', .refl _⟩

theorem Steady.grow (h : Steady k) (hlive : (k.proc c).Live) (hpage : CanGrow (k.proc c) va → k.freelist ≠ [])
    (hrun : cangrowup c va k = .ok (k', true)) : Steady k' := by
  have hsound := h.sound.grow hlive hrun
  have hready := h.ready c hlive
  obtain ⟨hb, -⟩ | ⟨i, hi, hg, pa, fl, htakes, ⟨hb, -⟩ | ⟨-, -, hva, -, d, fl', hmapped, rfl⟩⟩ :=
    cangrowup_ok hrun
  · cases hb
  · cases hb
  · obtain ⟨hu, hgrows, hnext, hfree⟩ := growsInto_iff.mp hg
    change va = ((k.proc c).mapEntries i).next at hnext
    have hrecord : IsRecord (k.proc c) i := ⟨hi, hu⟩
    have hfree' : FreeAt (k.proc c) (va + 1) := canallocatva_iff.mp hfree 0 Nat.one_pos
    obtain ⟨e, he⟩ := hready.settled.records
    obtain ⟨hguard, -, -⟩ := he.agree.guard i hrecord hgrows
    -- the page is off the free list
    have hmem : pa ∈ k.freelist := by
      rcases htakes with hlist | ⟨hnil, -⟩
      · rw [hlist]
        exact List.mem_cons_self
      · exact absurd hnil (hpage ⟨i, hrecord, hgrows, hguard.trans hnext.symm, hfree'⟩)
    have hpte : ∀ x, d.pte x =
        if x = ((k.proc c).mapEntries i).next then some pa else (k.proc c).pgdir.pte x := by
      intro x
      rw [hmapped.pte, List.length_singleton, ← hnext]
      by_cases hx : x = va
      · rw [if_pos (by omega), if_pos hx, hx, Nat.sub_self]
        rfl
      · rw [if_neg (by omega), if_neg hx]
    have hgrown : ((k.withDir c d fl' k.mem).withEntry c i ((k.proc c).mapEntries i).grown).proc c =
        (k.proc c).grow i d := by
      rw [Kernel.withEntry, Kernel.modify_self, Kernel.withDir_self_proc]
      rfl
    refine h.change c hsound ⟨rfl, rfl⟩ (fun q hq hlive' => ?_) fun _ => ?_
    · rw [Kernel.withEntry, Kernel.modify_of_ne _ hq, Kernel.withDir_proc_of_ne _ _ _ _ _ hq] at hlive' ⊢
      exact ⟨hlive', .refl _⟩
    · rw [hgrown]
      refine ⟨hready.settled.grow hrecord hgrows (hnext ▸ hfree') pa hpte, ?_, fun j hj hanon => ?_⟩
      · rintro x ⟨j, hj, hx⟩
        change d.pte _ = some x at hx
        rw [hpte] at hx
        split at hx
        · cases hx
          exact h.sound.freeable pa (mem_kept_free hmem)
        · exact hready.memory x ⟨j, hj, hx⟩
      · rw [isRecord_grow] at hj
        rw [Proc.grow_entry] at hanon ⊢
        show Opens (k.proc c) _
        split
        · rename_i hj'
          rw [if_pos hj'] at hanon
          exact hready.files i hrecord hanon
        · rename_i hj'
          rw [if_neg hj'] at hanon
          exact hready.files j hj hanon

theorem Steady.fault (h : Steady k) (hlive : (k.proc c).Live) (hpage : CanGrow (k.proc c) va → k.freelist ≠ [])
    (hrun : pagefault c va k = .ok k') : Steady k' := by
  obtain ⟨⟨k₁, grown⟩, h₁, h₂⟩ := bind_eq_ok hrun
  cases grown with
  | true =>
    cases h₂
    exact h.grow hlive hpage h₁
  | false =>
    obtain ⟨hproc, hfixed⟩ := cangrowup_proc h₁
    refine (h.same (h.sound.grow hlive h₁) hfixed hproc).exit ?_ h₂
    rw [hproc]
    exact hlive

/-! ### `fork` -/

theorem Steady.fork (h : Steady k) (hlive : (k.proc c).Live) (hroom : ForkRoom k c) {r : Option (Slot × ℕ)}
    (hrun : fork c k = .ok (k', r)) : Steady k' := by
  have hsound := h.sound.fork hlive hrun
  have hapart := h.sound.freeApart hlive.1
  have hready := h.ready c hlive
  cases r with
  | none =>
    obtain ⟨hfixed, hsame⟩ := fork_none hlive.1 hapart.below hrun
    refine h.change c hsound hfixed (fun q _ hlive' => ?_) fun hlive' => ?_
    · have he := hsame q hlive'.1
      rw [he] at hlive' ⊢
      exact ⟨hlive', .refl _⟩
    · rw [hsame c hlive'.1]
      exact hready
  | some r =>
    obtain ⟨np, pid⟩ := r
    obtain ⟨k₀, hforked, hall⟩ := fork_inherits hapart hlive hready.settled.mappings hroom hrun
    obtain ⟨hfixed, hne, hothers⟩ := inherited_others hforked hall hlive
    have hparent : k₀.proc c = k.proc c := hforked.others c hne.symm
    obtain ⟨kstack, d, hchild, hnone⟩ := hforked.child
    obtain ⟨d', entries, hproc⟩ := hall.child
    refine h.change np hsound hfixed hothers fun _ =>
      ⟨(hall.accord hforked hne hready.settled hapart.below).settled, ?_, fun i hi hanon => ?_⟩
    · rintro x ⟨j, hj, hpte⟩
      have hlo : MMAPBASE ≤ MMAPBASE + j := Nat.le_add_right ..
      obtain ⟨i, hi, hx⟩ := (hall.pte_iff hforked hne hready.settled hapart.below hlo).mp (by rw [hpte]; rfl)
      have hin : (k.proc c).mapEntries i ∈ records (k.proc c) :=
        mem_records.mpr ⟨i, hready.settled.mappings.index i hi, hi, rfl⟩
      cases hprivate : has ((k.proc c).mapEntries i).flags MAP_PRIVATE with
      | true =>
        obtain ⟨pa, pb, -, hpb, hfrom, -⟩ := hall.copied _ hin hprivate _ hx
        rw [hpte] at hpb
        cases hpb
        exact h.sound.freeable x (mem_kept_free (hforked.suffix.subset hfrom))
      | false =>
        obtain ⟨e, he⟩ := hready.settled.records
        have hshared := (he.kinds i hi).resolve_left (Bool.eq_false_iff.mp hprivate)
        rw [hall.shared _ hin hprivate hshared _ hx, hparent] at hpte
        exact hready.memory x ⟨j, hj, hpte⟩
    · -- the child has the records and the open files of its parent
      have hlt := (hall.accord hforked hne hready.settled hapart.below).lt hi
      rw [hall.index] at hlt
      have hentry : (k'.proc np).mapEntries i = (records (k.proc c))[i] := by
        rw [hall.entries, List.getElem?_eq_getElem hlt]
        rfl
      obtain ⟨j, -, hj, hrecord⟩ := mem_records.mp (List.getElem_mem hlt)
      rw [hentry, ← hrecord] at hanon ⊢
      obtain ⟨hfd, hfd', hopen⟩ := hready.files j hj hanon
      refine ⟨hfd, hfd', ?_⟩
      rw [hproc, hchild]
      show ((k.proc c).ofile _).or _ ≠ none
      obtain ⟨f, hf⟩ := Option.ne_none_iff_exists'.mp hopen
      rw [hf]
      exact Option.some_ne_none _

theorem Steady.step {call : Slot × Call} (h : Steady k) (hok : Careful k call) (hstep : step k call k') :
    Steady k' := by
  obtain ⟨c, call⟩ := call
  obtain ⟨hlive, hcond⟩ := hok
  cases call with
  | mmap a ext =>
    obtain ⟨r, hrun⟩ := map_fst_ok hstep
    exact h.mmap hlive hcond.2 hrun
  | munmap virtualAddress length ext =>
    obtain ⟨r, hrun⟩ := map_fst_ok hstep
    exact h.munmap hlive hcond hrun
  | sbrk n => exact hcond.elim
  | fork =>
    obtain ⟨r, hrun⟩ := map_fst_ok hstep
    exact h.fork hlive hcond hrun
  | exec program => exact hcond.elim
  | exit => exact h.exit hlive hstep
  | wait =>
    obtain ⟨r, hrun⟩ := map_fst_ok hstep
    exact h.wait hrun
  | fault va => exact h.fault hlive hcond hstep

theorem steady_of_reach (h : Reach Start step Careful k) : Steady k :=
  h.invariant (fun _ hs => hs.steady) fun _ _ _ hs hg hstep => hs.step hg hstep

end OperatingSystems.Vm.Lifetimes
