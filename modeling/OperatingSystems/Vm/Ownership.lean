import Mathlib
import OperatingSystems.Lib.Custody
import OperatingSystems.Vm.Steps

/-!
# Who owns the physical pages

There is no reference count.  A page is free, or the kernel stack of a process, or part of a page directory,
or in the image of a process: then it has one owner.  Or it is mapped in the range of the mappings, there at
any number of places, and `clearpte` looks through all page tables to find out whether it still is.

* **`Kernel.kept`** — the pages that have one owner, with those that a call has in its hand.
* **`Sound`** — no page has two owners, and no page with an owner is mapped in the range.
* **`Sound.change`** — the rule for a change of one process; from it one lemma for each primitive.
* **`Sound.mmap`**, **`Sound.munmap`**, **`Sound.grow`** — the calls on mappings keep it.
-/

namespace OperatingSystems.Vm

open Outcomes Custody

variable {k k' k₁ : Kernel} {c : Slot} {d d' : PgDir} {p p' : Proc} {va n : ℕ} {hand hand' : Multiset ℕ}
  {fl : List ℕ} {mem : ℕ → Page} {a : MmapArgs} {ext : External}

/-! ### Owned and mapped -/

/-- The pages of the image, of the page tables and of the directory. -/
def PgDir.own (d : PgDir) : Multiset ℕ :=
  holdings (List.range MMAPBASE) d.pte + holdings (List.range (KERNBASE / 1024)) d.table + d.kvm

/-- The pages in the range of the mappings, once for each place. -/
def PgDir.rangePages (d : PgDir) : Multiset ℕ :=
  holdings (List.range (KERNBASE - MMAPBASE)) fun i => d.pte (MMAPBASE + i)

def PgDir.mapped (d : PgDir) : Set ℕ :=
  {x | ∃ i < KERNBASE - MMAPBASE, d.pte (MMAPBASE + i) = some x}

def Proc.own (p : Proc) : Multiset ℕ :=
  if p.state = .UNUSED then 0 else {p.kstack} + p.pgdir.own

/-- All pages that have an owner: those in the hand of a call, the free list, those of the processes. -/
def Kernel.kept (k : Kernel) (hand : Multiset ℕ) : Multiset ℕ :=
  hand + k.freelist + ∑ q, (k.proc q).own

/-- **What holds of one process.**  A page is mapped once in it, but for the two that are no memory of its
own: page `0`, for an entry that was not present, and the page for a null pointer. -/
structure Tidy (free : ℕ → Prop) (p : Proc) : Prop where
  once : ∀ i < KERNBASE - MMAPBASE, ∀ j < KERNBASE - MMAPBASE, ∀ x,
    p.pgdir.pte (MMAPBASE + i) = some x → p.pgdir.pte (MMAPBASE + j) = some x → free x → i = j
  kinds : ∀ x ∈ p.pgdir.mapped, free x ∨ x = 0 ∨ x = nullPage
  zombie : p.state = .ZOMBIE → ∀ x, x ∉ p.pgdir.mapped
  starts : ∀ i < NMAP, (p.mapEntries i).isValid = true →
    (p.mapEntries i).startingVirtualAddress < KERNBASE
  size : p.sz ≤ MMAPBASE * PGSIZE

/-- **Every page has one owner or is in common use**, with the pages `hand` in the hand of a call. -/
structure Sound (hand : Multiset ℕ) (k : Kernel) : Prop where
  custody : Exclusive (k.kept hand) {x | ispamapped x k}
  freeable : ∀ x ∈ k.kept hand, k.Freeable x
  tidy : ∀ q, (k.proc q).state ≠ .UNUSED → Tidy k.Freeable (k.proc q)
  image : 2 ≤ k.kernelEnd

/-- The process can make calls. -/
def Proc.Live (p : Proc) : Prop :=
  p.state ≠ .UNUSED ∧ p.state ≠ .ZOMBIE

theorem ispamapped_iff {x : ℕ} : ispamapped x k ↔
    ∃ q, (k.proc q).state ≠ .UNUSED ∧ x ∈ (k.proc q).pgdir.mapped := Iff.rfl

theorem mem_mapped_of_pte {x : ℕ} (hlo : MMAPBASE ≤ va) (hhi : va < KERNBASE)
    (h : d.pte va = some x) : x ∈ d.mapped := by
  refine ⟨va - MMAPBASE, by omega, ?_⟩
  rwa [Nat.add_sub_cancel' hlo]

theorem own_of_live (h : p.state ≠ .UNUSED) : p.own = {p.kstack} + p.pgdir.own :=
  if_neg h

theorem own_le (c : Slot) : (k.proc c).own ≤ ∑ q, (k.proc q).own :=
  Finset.single_le_sum (f := fun q => (k.proc q).own) (fun _ _ => Multiset.zero_le _) (Finset.mem_univ c)

/-- The pages of a process can be freed. -/
theorem Sound.own_freeable (h : Sound hand k) {x : ℕ} (hx : x ∈ (k.proc c).own) : k.Freeable x :=
  h.freeable x (Multiset.mem_add.mpr (.inr (Multiset.mem_of_le (own_le c) hx)))

theorem Sound.not_mapped (h : Sound hand k) {x : ℕ} (hx : x ∈ k.kept hand) : ¬ispamapped x k :=
  h.custody.apart x hx

theorem mem_kept_hand {x : ℕ} (hx : x ∈ hand) : x ∈ k.kept hand :=
  Multiset.mem_add.mpr (.inl (Multiset.mem_add.mpr (.inl hx)))

theorem mem_kept_free {x : ℕ} (hx : x ∈ k.freelist) : x ∈ k.kept hand :=
  Multiset.mem_add.mpr (.inl (Multiset.mem_add.mpr (.inr hx)))

/-- The pages that are no memory are never kept. -/
theorem Sound.zero_not_freeable (h : Sound hand k) : ¬k.Freeable 0 := by
  intro hfree
  have := h.image
  have := hfree.1
  omega

theorem nullPage_not_freeable : ¬k.Freeable nullPage := by
  intro hfree
  exact absurd hfree.2 (by decide)

/-! ### A change of one process -/

/-- **The rule for a change of one process**: the pages `given` come into common use, the pages `back` are
mapped nowhere any more. -/
theorem Sound.change (h : Sound hand k) (c : Slot) (given back : Multiset ℕ)
    (hother : ∀ q, q ≠ c → k'.proc q = k.proc q) (hend : k'.kernelEnd = k.kernelEnd)
    (hkept : hand' + k'.freelist + (k'.proc c).own + given ≤
      back + (hand + k.freelist + (k.proc c).own))
    (hback : back.Nodup)
    (hgone : ∀ x ∈ back, k.Freeable x ∧ ispamapped x k ∧ ¬ispamapped x k')
    (hnew : (k'.proc c).state ≠ .UNUSED → Tidy k.Freeable (k'.proc c) ∧
      ∀ x ∈ (k'.proc c).pgdir.mapped, ispamapped x k ∨ x ∈ given ∨ ¬k.Freeable x) :
    Sound hand' k' := by
  have hfree : ∀ x, k'.Freeable x ↔ k.Freeable x := by
    intro x
    unfold Kernel.Freeable
    rw [hend]
  have hall : k'.kept hand' + given ≤ back + k.kept hand := by
    have hown : (fun q => (k'.proc q).own) =
        Function.update (fun q => (k.proc q).own) c (k'.proc c).own := by
      funext q
      by_cases hq : q = c
      · rw [hq, Function.update_self]
      · rw [Function.update_of_ne hq, hother q hq]
    have hsum := sum_update_add (fun q => (k.proc q).own) c (k'.proc c).own
    rw [← hown] at hsum
    refine le_of_add_le_add_right (a := (k.proc c).own) ?_
    calc k'.kept hand' + given + (k.proc c).own
        = hand' + k'.freelist + given + ((∑ q, (k'.proc q).own) + (k.proc c).own) := by
          unfold Kernel.kept
          abel
      _ = (hand' + k'.freelist + (k'.proc c).own + given) + ∑ q, (k.proc q).own := by
          rw [hsum]
          abel
      _ ≤ (back + (hand + k.freelist + (k.proc c).own)) + ∑ q, (k.proc q).own :=
          add_le_add_left hkept _
      _ = back + k.kept hand + (k.proc c).own := by
          unfold Kernel.kept
          abel
  have hfreeable : ∀ x ∈ k'.kept hand', k.Freeable x := by
    intro x hx
    rcases Multiset.mem_add.mp (Multiset.mem_of_le hall (Multiset.mem_add.mpr (.inl hx))) with hb | hk
    · exact (hgone x hb).1
    · exact h.freeable x hk
  refine ⟨?_, fun x hx => (hfree x).mpr (hfreeable x hx), ?_, hend ▸ h.image⟩
  · refine h.custody.exchange hall hback (fun x hx => (hgone x hx).2.1) (fun x hx => (hgone x hx).2.2) ?_
    intro x hmapped hx
    obtain ⟨q, hq, hin⟩ := ispamapped_iff.mp hmapped
    by_cases hqc : q = c
    · rw [hqc] at hq hin
      rcases (hnew hq).2 x hin with hold | hgiven | hnot
      · exact .inl hold
      · exact .inr hgiven
      · exact absurd (hfreeable x hx) hnot
    · rw [hother q hqc] at hq hin
      exact .inl ⟨q, hq, hin⟩
  · intro q hq
    have htidy : Tidy k.Freeable (k'.proc q) := by
      by_cases hqc : q = c
      · rw [hqc] at hq ⊢
        exact (hnew hq).1
      · rw [hother q hqc] at hq ⊢
        exact h.tidy q hq
    exact ⟨fun i hi j hj x hx hx' hf => htidy.once i hi j hj x hx hx' ((hfree x).mp hf),
      fun x hx => (htidy.kinds x hx).imp_left (hfree x).mpr, htidy.zombie, htidy.starts, htidy.size⟩

/-- Pages move between the hand and the free list, or are lost. -/
theorem Sound.move (h : Sound hand k) (hproc : k'.proc = k.proc) (hend : k'.kernelEnd = k.kernelEnd)
    (hkept : hand' + (k'.freelist : Multiset ℕ) ≤ hand + k.freelist) : Sound hand' k' := by
  refine h.change 0 0 0 (fun q _ => congrFun hproc q) hend ?_
    Multiset.nodup_zero (fun x hx => absurd hx (Multiset.notMem_zero x)) ?_
  · rw [hproc, add_zero, zero_add]
    exact add_le_add_left hkept _
  · rw [hproc]
    exact fun hq => ⟨h.tidy 0 hq, fun x hx => .inl ⟨0, hq, hx⟩⟩

theorem Sound.kfree {v : ℕ} (h : Sound (v ::ₘ hand) k) (hrun : kfree v k = .ok k') : Sound hand k' := by
  obtain ⟨-, mem, rfl⟩ := kfree_ok hrun
  refine h.move rfl rfl (le_of_eq ?_)
  show hand + ((v :: k.freelist : List ℕ) : Multiset ℕ) = v ::ₘ hand + k.freelist
  rw [← Multiset.cons_coe, Multiset.add_cons, Multiset.cons_add]

theorem Sound.kfreeAll {vs : List ℕ} (h : Sound (vs + hand) k) (hrun : kfreeAll vs k = .ok k') :
    Sound hand k' := by
  obtain ⟨-, mem, rfl⟩ := kfreeAll_ok hrun
  refine h.move rfl rfl (le_of_eq ?_)
  show hand + ((vs.reverse ++ k.freelist : List ℕ) : Multiset ℕ) = vs + hand + k.freelist
  rw [← Multiset.coe_add, Multiset.coe_reverse]
  abel

/-- The pages are in the hand afterwards, or all back on the free list. -/
theorem Sound.allocPages {got : List ℕ} {r : Option (List ℕ)} (h : Sound (got + hand) k)
    (hrun : allocPages n got k = .ok (k', r)) : Sound ((r.getD [] : List ℕ) + hand) k' := by
  obtain ⟨-, rfl, rfl⟩ | ⟨-, rfl, mem, rfl⟩ := allocPages_ok hrun
  · refine h.move rfl rfl (le_of_eq ?_)
    show ((got ++ k.freelist.take n : List ℕ) : Multiset ℕ) + hand + (k.freelist.drop n : List ℕ) =
      got + hand + k.freelist
    conv_rhs => rw [← List.take_append_drop n k.freelist, ← Multiset.coe_add]
    rw [← Multiset.coe_add]
    abel
  · refine h.move rfl rfl (le_of_eq ?_)
    show ((([] : List ℕ) : Multiset ℕ) + hand) + (((got ++ k.freelist).reverse : List ℕ) : Multiset ℕ) =
      got + hand + k.freelist
    rw [Multiset.coe_reverse, ← Multiset.coe_add, Multiset.coe_nil]
    abel

/-! ### Page directories -/

theorem Tables.holdings_le {t t' : ℕ → Option ℕ} {xs : List ℕ} (h : Tables t xs t') {cells : List ℕ}
    (hcells : cells.Nodup) : holdings cells t' ≤ xs + holdings cells t := by
  induction h with
  | nil t => exact le_of_eq (zero_add _).symm
  | @cons t t' pdx x xs hfree _ ih =>
    refine ih.trans ?_
    rw [← Multiset.cons_coe, Multiset.cons_add, ← Multiset.add_cons]
    exact add_le_add_right (holdings_fill_le hcells hfree) _

/-- Mapping in the range adds page tables to the pages of the directory. -/
theorem Mapped.own_le {ps fl' : List ℕ} (h : Mapped d d' va ps fl fl') (hlo : MMAPBASE ≤ va) :
    (fl' : Multiset ℕ) + d'.own ≤ fl + d.own := by
  obtain ⟨ts, rfl, htables⟩ := h.tables
  have himage : holdings (List.range MMAPBASE) d'.pte = holdings (List.range MMAPBASE) d.pte := by
    refine holdings_congr fun x hx => ?_
    have hlt := List.mem_range.mp hx
    rw [h.pte, if_neg (by omega)]
  have hle : holdings (List.range (KERNBASE / 1024)) d'.table ≤
      ts + holdings (List.range (KERNBASE / 1024)) d.table :=
    htables.holdings_le List.nodup_range
  unfold PgDir.own
  rw [himage, h.kvm, ← Multiset.coe_add]
  calc (fl' : Multiset ℕ) + (holdings (List.range MMAPBASE) d.pte +
        holdings (List.range (KERNBASE / 1024)) d'.table + d.kvm)
      ≤ fl' + (holdings (List.range MMAPBASE) d.pte +
        (ts + holdings (List.range (KERNBASE / 1024)) d.table) + d.kvm) := by
        refine add_le_add_right (add_le_add_left (add_le_add_right hle _) _) _
    _ = _ := by abel

theorem Mapped.mapped {ps fl' : List ℕ} (h : Mapped d d' va ps fl fl') {x : ℕ} (hx : x ∈ d'.mapped) :
    x ∈ d.mapped ∨ x ∈ ps := by
  obtain ⟨i, hi, hpte⟩ := hx
  rw [h.pte] at hpte
  split at hpte
  · exact .inr (List.mem_of_getElem? hpte)
  · exact .inl ⟨i, hi, hpte⟩

/-- **A row of pages is mapped in the range**: pages from the hand, or pages that are in common use or no
memory, as long as the process does not map them yet. -/
theorem Sound.mapRow {given : Multiset ℕ} {ps : List ℕ} (h : Sound (given + hand) k)
    (hlive : (k.proc c).Live) (hm : Mapped (k.proc c).pgdir d va ps k.freelist fl) (hlo : MMAPBASE ≤ va)
    (hfrom : ∀ x ∈ ps, x ∈ given ∨ ispamapped x k ∨ x = 0 ∨ x = nullPage) (hnodup : ps.Nodup)
    (hnew : ∀ x ∈ ps, k.Freeable x → x ∉ (k.proc c).pgdir.mapped) (mem : ℕ → Page) :
    Sound hand (k.withDir c d fl mem) := by
  have htidy := h.tidy c hlive.1
  have hproc := Kernel.withDir_self_proc k c d fl mem
  refine h.change c given 0
    (fun q hq => Kernel.withDir_proc_of_ne k c d fl mem hq) rfl ?_ Multiset.nodup_zero
    (fun x hx => absurd hx (Multiset.notMem_zero x)) ?_
  · rw [hproc, own_of_live hlive.1, own_of_live (p := { k.proc c with pgdir := d }) hlive.1, zero_add]
    have hown := hm.own_le hlo
    calc hand + (fl : Multiset ℕ) + ({(k.proc c).kstack} + d.own) + given
        = (given + hand) + {(k.proc c).kstack} + (fl + d.own) := by abel
      _ ≤ (given + hand) + {(k.proc c).kstack} + (k.freelist + (k.proc c).pgdir.own) :=
          add_le_add_right hown _
      _ = _ := by abel
  · intro _
    rw [hproc]
    refine ⟨⟨?_, ?_, fun hz => absurd hz hlive.2, htidy.starts, htidy.size⟩, ?_⟩
    · intro i hi j hj x hpi hpj hfree
      dsimp only at hpi hpj
      rw [hm.pte] at hpi hpj
      split at hpi
      · split at hpj
        · rename_i hin hin'
          have hlt : MMAPBASE + i - va < ps.length := by omega
          have heq := (List.getElem?_inj hlt hnodup).mp (hpi.trans hpj.symm)
          omega
        · exact absurd ⟨j, hj, hpj⟩ (hnew x (List.mem_of_getElem? hpi) hfree)
      · split at hpj
        · exact absurd ⟨i, hi, hpi⟩ (hnew x (List.mem_of_getElem? hpj) hfree)
        · exact htidy.once i hi j hj x hpi hpj hfree
    · intro x hx
      rcases hm.mapped hx with hold | hps
      · exact htidy.kinds x hold
      · rcases hfrom x hps with hg | ⟨q, hq, hin⟩ | hzero
        · exact .inl (h.freeable x (mem_kept_hand (Multiset.mem_add.mpr (.inl hg))))
        · exact (h.tidy q hq).kinds x hin
        · exact .inr hzero
    · intro x hx
      rcases hm.mapped hx with hold | hps
      · exact .inl ⟨c, hlive.1, hold⟩
      · rcases hfrom x hps with hg | hmapped | rfl | rfl
        · exact .inr (.inl hg)
        · exact .inl hmapped
        · exact .inr (.inr h.zero_not_freeable)
        · exact .inr (.inr nullPage_not_freeable)

/-- Pages from the hand are mapped. -/
theorem Sound.map {ps : List ℕ} (h : Sound (ps + hand) k) (hlive : (k.proc c).Live)
    (hm : Mapped (k.proc c).pgdir d va ps k.freelist fl) (hlo : MMAPBASE ≤ va) (mem : ℕ → Page) :
    Sound hand (k.withDir c d fl mem) := by
  refine h.mapRow hlive hm hlo (fun x hx => .inl (Multiset.mem_coe.mpr hx)) ?_ ?_ mem
  · have hle : (ps : Multiset ℕ) ≤ k.kept (ps + hand) := by
      unfold Kernel.kept
      rw [add_assoc, add_assoc]
      exact Multiset.le_add_right ..
    exact Multiset.coe_nodup.mp (Multiset.nodup_of_le hle h.custody.nodup)
  · intro x hx _ hmapped
    exact h.not_mapped (mem_kept_hand (Multiset.mem_add.mpr (.inl (Multiset.mem_coe.mpr hx))))
      ⟨c, hlive.1, hmapped⟩

/-- A page that is in common use, or no memory, is mapped. -/
theorem Sound.mapCommon {x : ℕ} (h : Sound hand k) (hlive : (k.proc c).Live)
    (hm : Mapped (k.proc c).pgdir d va [x] k.freelist fl) (hlo : MMAPBASE ≤ va)
    (hx : ispamapped x k ∨ x = 0 ∨ x = nullPage)
    (hnew : k.Freeable x → x ∉ (k.proc c).pgdir.mapped) (mem : ℕ → Page) :
    Sound hand (k.withDir c d fl mem) := by
  have hsound : Sound (0 + hand) k := by rwa [zero_add]
  refine hsound.mapRow hlive hm hlo ?_ (List.nodup_singleton x) ?_ mem
  · intro y hy
    rw [List.mem_singleton.mp hy]
    exact .inr hx
  · intro y hy
    rw [List.mem_singleton.mp hy]
    exact hnew

/-! ### Growth -/

/-- Other records with the same addresses. -/
theorem Sound.withEntry {m : MapEntry} {i : ℕ} (h : Sound hand k)
    (hm : m.isValid = true → m.startingVirtualAddress < KERNBASE) : Sound hand (k.withEntry c i m) := by
  have hproc : (k.withEntry c i m).proc c =
      { k.proc c with mapEntries := Function.update (k.proc c).mapEntries i m } := Kernel.modify_self ..
  refine h.change c 0 0 (fun q hq => Kernel.modify_of_ne k hq _) rfl ?_
    Multiset.nodup_zero (fun x hx => absurd hx (Multiset.notMem_zero x)) ?_
  · rw [hproc, add_zero, zero_add]
    exact le_refl _
  · rw [hproc]
    intro hq
    have htidy := h.tidy c hq
    refine ⟨⟨htidy.once, htidy.kinds, htidy.zombie, ?_, htidy.size⟩, fun x hx => .inl ⟨c, hq, hx⟩⟩
    intro j hj hv
    dsimp only at hv ⊢
    by_cases hji : j = i
    · rw [hji, Function.update_self] at hv ⊢
      exact hm hv
    · rw [Function.update_of_ne hji] at hv ⊢
      exact htidy.starts j hj hv

theorem Sound.grow {b : Bool} (h : Sound hand k) (hlive : (k.proc c).Live)
    (hrun : cangrowup c va k = .ok (k', b)) : Sound hand k' := by
  obtain ⟨-, rfl⟩ | ⟨i, -, hinto, pa, fl, htakes, hcase⟩ := cangrowup_ok hrun
  · exact h
  · obtain ⟨huse, -, hva, -⟩ := growsInto_iff.mp hinto
    obtain ⟨-, hlo, hhi⟩ := inUse_iff.mp huse
    rcases hcase with ⟨-, -, rfl⟩ | ⟨-, -, -, -, d, fl', hm, rfl⟩
    · refine h.move ?_ rfl ?_
      · unfold Kernel.withDir
        exact Function.update_eq_self ..
      · rw [Kernel.withDir_freelist, Multiset.coe_nil]
        exact add_le_add_right (Multiset.zero_le _) _
    · refine Sound.withEntry ?_ fun _ => hhi
      rcases htakes with hcons | ⟨hnil, rfl, rfl⟩
      · -- a page from the free list comes into the hand first
        have hhand : Sound ((([pa] : List ℕ) : Multiset ℕ) + hand) { k with freelist := fl } := by
          refine h.move rfl rfl (le_of_eq ?_)
          show (([pa] : List ℕ) : Multiset ℕ) + hand + fl = hand + k.freelist
          rw [hcons, show pa :: fl = [pa] ++ fl from rfl, ← Multiset.coe_add]
          abel
        exact hhand.map (k := { k with freelist := fl }) hlive hm (by omega) k.mem
      · have hm' : Mapped (k.proc c).pgdir d va [nullPage] k.freelist fl' := by
          rw [hnil]
          exact hm
        exact h.mapCommon hlive hm' (by omega) (.inr (.inr rfl))
          (fun hfree => absurd hfree nullPage_not_freeable) k.mem

/-! ### Changes that do not matter -/

theorem Sound.congr (h : Sound hand k) (hproc : ∀ q, (k'.proc q).state = (k.proc q).state ∧
      (k'.proc q).kstack = (k.proc q).kstack ∧ (k'.proc q).pgdir = (k.proc q).pgdir ∧
      (k'.proc q).mapEntries = (k.proc q).mapEntries ∧ (k'.proc q).sz = (k.proc q).sz)
    (hfl : k'.freelist = k.freelist) (hend : k'.kernelEnd = k.kernelEnd) : Sound hand k' := by
  have hfree : k'.Freeable = k.Freeable := by
    funext x
    unfold Kernel.Freeable
    rw [hend]
  have hkept : k'.kept hand = k.kept hand := by
    have hown : ∀ q, (k'.proc q).own = (k.proc q).own := by
      intro q
      unfold Proc.own
      rw [(hproc q).1, (hproc q).2.1, (hproc q).2.2.1]
    unfold Kernel.kept
    rw [hfl, Finset.sum_congr rfl fun q _ => hown q]
  have hmapped : {x | ispamapped x k'} = {x | ispamapped x k} := by
    refine Set.ext fun x => ispamapped_iff.trans (Iff.trans (exists_congr fun q => ?_)
      ispamapped_iff.symm)
    rw [(hproc q).1, (hproc q).2.2.1]
  refine ⟨?_, ?_, ?_, hend ▸ h.image⟩
  · rw [hkept, hmapped]
    exact h.custody
  · rw [hkept, hfree]
    exact h.freeable
  · intro q hq
    rw [(hproc q).1] at hq
    obtain ⟨honce, hkinds, hzombie, hstarts, hsize⟩ := h.tidy q hq
    rw [hfree]
    constructor
    · rwa [(hproc q).2.2.1]
    · rwa [(hproc q).2.2.1]
    · rwa [(hproc q).1, (hproc q).2.2.1]
    · rwa [(hproc q).2.2.2.1]
    · rwa [(hproc q).2.2.2.2]

/-- Files, contents and inodes do not matter. -/
theorem Sound.same (h : Sound hand k) (hproc : k'.proc = k.proc) (hfl : k'.freelist = k.freelist)
    (hend : k'.kernelEnd = k.kernelEnd) : Sound hand k' :=
  h.congr (fun q => by rw [hproc]; exact ⟨rfl, rfl, rfl, rfl, rfl⟩) hfl hend

/-! ### Clearing -/

theorem clear_pte_some {y x : ℕ} (h : (d.clear va).pte y = some x) : y ≠ va ∧ d.pte y = some x := by
  have hupdate : (d.clear va).pte y = Function.update d.pte va none y := rfl
  by_cases hy : y = va
  · rw [hupdate, hy, Function.update_self] at h
    cases h
  · rw [hupdate, Function.update_of_ne hy] at h
    exact ⟨hy, h⟩

theorem own_clear_le (d : PgDir) (va : ℕ) : (d.clear va).own ≤ d.own :=
  add_le_add_left (add_le_add_left (holdings_empty_le List.nodup_range) _) _

theorem Tidy.clear {free : ℕ → Prop} (h : Tidy free p) (va : ℕ) :
    Tidy free { p with pgdir := p.pgdir.clear va } where
  once i hi j hj x hpi hpj := h.once i hi j hj x (clear_pte_some hpi).2 (clear_pte_some hpj).2
  kinds := fun x ⟨i, hi, hx⟩ => h.kinds x ⟨i, hi, (clear_pte_some hx).2⟩
  zombie := fun hz x ⟨i, hi, hx⟩ => h.zombie hz x ⟨i, hi, (clear_pte_some hx).2⟩
  starts := h.starts
  size := h.size

/-- An entry is cleared, and its page freed or not. -/
theorem Sound.clearDir (h : Sound hand k) (hlive : (k.proc c).Live) (back : Multiset ℕ)
    (hkept : fl + ((k.proc c).pgdir.clear va).own ≤ back + (k.freelist + (k.proc c).pgdir.own))
    (hback : back.Nodup) (hgone : ∀ x ∈ back, k.Freeable x ∧ ispamapped x k ∧
      ¬ispamapped x (k.withDir c ((k.proc c).pgdir.clear va) fl mem)) :
    Sound hand (k.withDir c ((k.proc c).pgdir.clear va) fl mem) := by
  have hproc := Kernel.withDir_self_proc k c ((k.proc c).pgdir.clear va) fl mem
  refine h.change c 0 back (fun q hq => Kernel.withDir_proc_of_ne k c _ fl mem hq) rfl ?_
    hback hgone ?_
  · rw [hproc, own_of_live hlive.1,
      own_of_live (p := { k.proc c with pgdir := (k.proc c).pgdir.clear va }) hlive.1, add_zero]
    calc hand + (fl : Multiset ℕ) + ({(k.proc c).kstack} + ((k.proc c).pgdir.clear va).own)
        = hand + {(k.proc c).kstack} + (fl + ((k.proc c).pgdir.clear va).own) := by abel
      _ ≤ hand + {(k.proc c).kstack} + (back + (k.freelist + (k.proc c).pgdir.own)) :=
          add_le_add_right hkept _
      _ = _ := by abel
  · rw [hproc]
    refine fun _ => ⟨(h.tidy c hlive.1).clear va, fun x ⟨i, hi, hx⟩ => .inl ⟨c, hlive.1, i, hi, ?_⟩⟩
    exact (clear_pte_some hx).2

/-- An entry is cleared, and nothing is freed. -/
theorem Sound.clear (h : Sound hand k) (hlive : (k.proc c).Live) (va : ℕ) :
    Sound hand (k.withDir c ((k.proc c).pgdir.clear va) k.freelist k.mem) := by
  refine h.clearDir hlive 0 ?_ Multiset.nodup_zero
    fun x hx => absurd hx (Multiset.notMem_zero x)
  rw [zero_add]
  exact add_le_add_right (own_clear_le _ va) _

/-- The kernel half begins with two pages that are never freed. -/
theorem walkpgdir_kernel {j : ℕ} (hj : j < 2) : walkpgdir d (KERNBASE + j) = some (some j) := by
  have hlt : j < PHYSTOP := hj.trans (by decide)
  unfold walkpgdir kernelPte
  rw [if_neg (by omega), Nat.add_sub_cancel_left, if_pos hlt]
  rfl

/-- **`clearpte`**, up to the second page of the kernel half, which it never gets past. -/
theorem Sound.clearpte {b : Bool} (h : Sound hand k) (hlive : (k.proc c).Live) (hva : va ≤ KERNBASE + 1)
    (hrun : clearpte c va k = .ok (k', b)) : Sound hand k' ∧ va ≤ KERNBASE := by
  have himage := h.image
  obtain ⟨-, rfl, hw⟩ | ⟨pte, fl, mem, -, hw, rfl, ⟨rfl, rfl, hmapped⟩ | ⟨rfl, hfree, hnot⟩⟩ :=
    clearpte_ok hrun
  · refine ⟨h, ?_⟩
    by_contra hlt
    have heq : va = KERNBASE + 1 := by omega
    rw [heq, walkpgdir_kernel (by omega)] at hw
    cases hw
  · refine ⟨h.clear hlive va, ?_⟩
    by_contra hlt
    have heq : va = KERNBASE + 1 := by omega
    rw [heq, walkpgdir_kernel (by omega)] at hw
    cases hw
    -- page 1 is mapped nowhere
    obtain ⟨q, hq, hin⟩ := ispamapped_iff.mp hmapped
    rcases ((h.clear hlive va).tidy q hq).kinds _ hin with hfree | hzero | hnull
    · have hle : k.kernelEnd ≤ 1 := hfree.1
      omega
    · exact absurd hzero (by decide)
    · exact absurd hnull (by decide)
  · have hle : k.kernelEnd ≤ pte.getD 0 := hfree.1
    have hpte : va < KERNBASE ∧ (k.proc c).pgdir.pte va = some (pte.getD 0) := by
      by_cases hlt : va < KERNBASE
      · unfold walkpgdir at hw
        rw [if_pos hlt] at hw
        obtain ⟨-, -, heq⟩ := Option.map_eq_some_iff.mp hw
        refine ⟨hlt, ?_⟩
        cases pte with
        | none =>
          have hzero : k.kernelEnd ≤ 0 := hle
          omega
        | some x => exact heq
      · obtain ⟨j, hj, rfl⟩ : ∃ j < 2, va = KERNBASE + j := ⟨va - KERNBASE, by omega, by omega⟩
        rw [walkpgdir_kernel hj] at hw
        cases hw
        have hj' : k.kernelEnd ≤ j := hle
        omega
    obtain ⟨hlt, hpte⟩ := hpte
    refine ⟨?_, hlt.le⟩
    by_cases hlow : va < MMAPBASE
    · -- a page of the image
      refine h.clearDir hlive 0 ?_ Multiset.nodup_zero
        fun x hx => absurd hx (Multiset.notMem_zero x)
      have hcell := holdings_empty (List.mem_range.mpr hlow) List.nodup_range hpte
      have hown : (k.proc c).pgdir.own = {pte.getD 0} + ((k.proc c).pgdir.clear va).own := by
        unfold PgDir.own
        rw [hcell, ← Multiset.singleton_add, add_assoc, add_assoc, ← add_assoc (holdings _ _)]
        rfl
      rw [hown, ← Multiset.cons_coe, ← Multiset.singleton_add, zero_add]
      exact le_of_eq (by abel)
    · -- a page that was in common use
      refine h.clearDir hlive {pte.getD 0} ?_ (Multiset.nodup_singleton _) ?_
      · rw [← Multiset.cons_coe, ← Multiset.singleton_add, add_assoc]
        exact add_le_add_right (add_le_add_right (own_clear_le _ va) _) _
      · intro x hx
        rw [Multiset.mem_singleton.mp hx]
        exact ⟨hfree, ⟨c, hlive.1, mem_mapped_of_pte (not_lt.mp hlow) hlt hpte⟩, hnot⟩

theorem Sound.clearPages {b : Bool} (h : Sound hand k) (hlive : (k.proc c).Live)
    (hva : va ≤ KERNBASE + 1) (hrun : clearPages c va n k = .ok (k', b)) : Sound hand k' := by
  induction n generalizing va k with
  | zero =>
    cases hrun
    exact h
  | succ n ih =>
    obtain ⟨⟨k₁, cleared⟩, h₁, h₂⟩ := bind_eq_ok hrun
    obtain ⟨hsound, hle⟩ := h.clearpte hlive hva h₁
    dsimp only at h₂
    cases cleared with
    | false =>
      cases h₂
      exact hsound
    | true =>
      refine ih hsound ?_ (by omega) h₂
      obtain ⟨hb, -⟩ | ⟨pte, fl, mem, -, -, rfl, -⟩ := clearpte_ok h₁
      · cases hb
      · rw [Kernel.withDir_self_proc]
        exact hlive

/-! ### The calls on mappings -/

theorem live_withDir (d : PgDir) (fl : List ℕ) (mem : ℕ → Page) :
    ((k.withDir c d fl mem).proc c).Live ↔ (k.proc c).Live := by
  rw [Kernel.withDir_self_proc]
  exact Iff.rfl

/-- Growth changes no state. -/
theorem cangrowup_state {b : Bool} (hrun : cangrowup c va k = .ok (k', b)) :
    (k'.proc c).state = (k.proc c).state := by
  obtain ⟨-, rfl⟩ | ⟨i, -, -, pa, fl, -, ⟨-, -, rfl⟩ | ⟨-, -, -, -, d, fl', -, rfl⟩⟩ := cangrowup_ok hrun
  · rfl
  · rw [Kernel.withDir_self_proc]
  · unfold Kernel.withEntry
    rw [Kernel.modify_self, Kernel.withDir_self_proc]

/-- A new record. -/
theorem Sound.record {i n : ℕ} {m : MapEntry} (h : Sound hand k)
    (hm : m.isValid = true → m.startingVirtualAddress < KERNBASE) :
    Sound hand (k.modify c fun p => { p with
      mapEntries := Function.update p.mapEntries i m, currentMappingIndex := n }) := by
  refine (h.withEntry (c := c) (i := i) hm).congr (fun q => ?_) rfl rfl
  by_cases hq : q = c
  · rw [hq, Kernel.modify_self]
    unfold Kernel.withEntry
    rw [Kernel.modify_self]
    exact ⟨rfl, rfl, rfl, rfl, rfl⟩
  · rw [Kernel.modify_of_ne _ hq]
    unfold Kernel.withEntry
    rw [Kernel.modify_of_ne _ hq]
    exact ⟨rfl, rfl, rfl, rfl, rfl⟩

/-- The first pages of the free list come into the hand. -/
theorem Sound.take (h : Sound hand k) (m n : ℕ) (hmn : m ≤ n) :
    Sound ((k.freelist.take m : List ℕ) + hand) { k with freelist := k.freelist.drop n } := by
  refine h.move rfl rfl ?_
  show ((k.freelist.take m : List ℕ) : Multiset ℕ) + hand + (k.freelist.drop n : List ℕ) ≤
    hand + k.freelist
  have hsub : (k.freelist.take m).Subperm (k.freelist.take n) :=
    (List.take_prefix_take_left hmn).sublist.subperm
  calc ((k.freelist.take m : List ℕ) : Multiset ℕ) + hand + (k.freelist.drop n : List ℕ)
      ≤ ((k.freelist.take n : List ℕ) : Multiset ℕ) + hand + (k.freelist.drop n : List ℕ) :=
        add_le_add_left (add_le_add_left hsub _) _
    _ = hand + ((k.freelist.take n ++ k.freelist.drop n : List ℕ) : Multiset ℕ) := by
        rw [← Multiset.coe_add]
        abel
    _ = hand + k.freelist := by rw [List.take_append_drop]

/-- The pages that `mmap` has taken are mapped. -/
theorem Sound.mapGot {m n : ℕ} (h : Sound hand k) (hlive : (k.proc c).Live) (hmn : m ≤ n)
    (hmapped : Mapped (k.proc c).pgdir d va (k.freelist.take m) (k.freelist.drop n) fl)
    (hlo : MMAPBASE ≤ va) (mem : ℕ → Page) : Sound hand (k.withDir c d fl mem) :=
  (h.take m n hmn).map (k := { k with freelist := k.freelist.drop n }) hlive hmapped hlo mem

theorem Sound.mmap {r : Option ℕ} (h : Sound hand k) (hlive : (k.proc c).Live)
    (hrun : sys_mmap c a ext k = .ok (k', r)) : Sound hand k' := by
  have hdrop : Sound hand { k with freelist := k.freelist.drop a.pages } := by
    have htake := h.take 0 a.pages (Nat.zero_le _)
    rwa [List.take_zero, Multiset.coe_nil, zero_add] at htake
  cases sys_mmap_exit hrun with
  | invalid _ => exact h
  | memory mem _ _ =>
    refine h.move rfl rfl (le_of_eq ?_)
    rw [Multiset.coe_reverse]
  | place _ _ _ => exact hdrop
  | guard va _ _ _ _ => exact hdrop
  | tables va m d hplaced hlt hmapped _ =>
    have hlo := (placeMapping_some hplaced.place).1
    unfold MmapArgs.got at hmapped
    rw [List.take_take, min_eq_left hlt.le] at hmapped
    exact h.mapGot hlive hlt.le hmapped hlo k.mem
  | read va d fl mem file hplaced hmapped _ =>
    have hlo := (placeMapping_some hplaced.place).1
    exact (h.mapGot hlive (le_refl _) hmapped hlo mem).same rfl rfl rfl
  | done va d fl mem file hplaced hmapped _ _ =>
    obtain ⟨hlo, hhi, -⟩ := placeMapping_some hplaced.place
    have hsound : Sound hand { k.withDir c d fl mem with file := file } :=
      (h.mapGot hlive (le_refl _) hmapped hlo mem).same rfl rfl rfl
    have hrecord := hsound.record (c := c) (i := (k.proc c).currentMappingIndex)
      (n := (k.proc c).currentMappingIndex + 1) (m := a.entry va a.pages) fun _ => hhi
    simp only [Kernel.modify, Kernel.withDir, Function.update_self, Function.update_idem] at hrecord ⊢
    exact hrecord

theorem Sound.munmap {virtualAddress length : ℤ} {b : Bool} (h : Sound hand k)
    (hlive : (k.proc c).Live) (hrun : sys_munmap c virtualAddress length ext k = .ok (k', b)) :
    Sound hand k' := by
  have hwrite : ∀ i k₁ b, writeMapping c ((k.proc c).mapEntries i) (pageOf virtualAddress) ext k =
      .ok (k₁, b) → Sound hand k₁ ∧ (k₁.proc c).Live := by
    intro i k₁ b hw
    refine writeMapping_keeps (P := fun k => Sound hand k ∧ (k.proc c).Live) (S := fun _ => True) ?_
      (fun _ _ _ hk => ⟨hk.1.same rfl rfl rfl, hk.2⟩) (fun _ _ _ hk => ⟨hk.1.same rfl rfl rfl, hk.2⟩)
      (fun _ _ _ => trivial) hw ⟨h, hlive⟩
    intro va k k' _ hgrown hk
    refine ⟨hk.1.grow hk.2 hgrown, ?_⟩
    unfold Proc.Live
    rw [cangrowup_state hgrown]
    exact hk.2
  have hclear : ∀ i k₁ k₂ b, Found k c virtualAddress i →
      writeMapping c ((k.proc c).mapEntries i) (pageOf virtualAddress) ext k = .ok (k₁, true) →
      Vm.clearPages c (pageOf virtualAddress) (munmapPages length) k₁ = .ok (k₂, b) → Sound hand k₂ := by
    intro i k₁ k₂ b hfound hw hcl
    obtain ⟨hi, hvalid, hstart⟩ := findmappingmetadata_some hfound.found
    have hlt := (h.tidy c hlive.1).starts i hi hvalid
    obtain ⟨hsound, hlive₁⟩ := hwrite i k₁ true hw
    exact hsound.clearPages hlive₁ (by omega) hcl
  cases sys_munmap_exit hrun with
  | misaligned _ => exact h
  | unknown _ _ => exact h
  | write i _ _ hw => exact (hwrite i _ _ hw).1
  | clear i k₁ _ hfound hw hcl => exact hclear i k₁ _ _ hfound hw hcl
  | done i k₁ k₂ hfound hw hcl =>
    refine (hclear i k₁ k₂ _ hfound hw hcl).withEntry ?_
    intro hv
    cases hv

end OperatingSystems.Vm
