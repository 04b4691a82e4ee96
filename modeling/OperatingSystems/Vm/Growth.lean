import Mathlib
import OperatingSystems.Vm.Access
import OperatingSystems.Vm.Gaps

/-!
# Growth on a page fault

`cangrowup` maps one more page for the mapping whose guard page has been touched.  It does not look at
the result of `kalloc`, and it keeps the page when there is none left for a page table.

* **`Agree`** — the mapping records and the page table say the same; **`Agree.grow`**: growth keeps that.
* **`GrowthExact`** — what growth on a fault should do.
* **`growth_exact_iff`** — when it does; **`growth_maps_null`**: not when the last page is gone.
-/

namespace OperatingSystems.Vm

open Outcomes

variable {k k' : Kernel} {c : Slot} {p : Proc} {va i : ℕ}

/-! ### Records and page table -/

/-- A record that the scanners look at and take for a mapping. -/
def IsRecord (p : Proc) (i : ℕ) : Prop :=
  i ≤ p.currentMappingIndex ∧ (p.mapEntries i).inUse = true

/-- The page behind the mapping. -/
def MapEntry.next (m : MapEntry) : ℕ := m.startingVirtualAddress + m.numPages

def MapEntry.Covers (m : MapEntry) (x : ℕ) : Prop :=
  m.startingVirtualAddress ≤ x ∧ x < m.next

def MapEntry.growsUp (m : MapEntry) : Bool := has m.flags MAP_GROWSUP

/-- **The mapping records and the page table agree.** -/
structure Agree (p : Proc) : Prop where
  index : ∀ i, IsRecord p i → i < NMAP
  within : ∀ i, IsRecord p i → (p.mapEntries i).next ≤ KERNBASE
  present : ∀ x, MMAPBASE ≤ x → x < KERNBASE →
    ((p.pgdir.pte x).isSome ↔ ∃ i, IsRecord p i ∧ (p.mapEntries i).Covers x)
  apart : ∀ i j x, IsRecord p i → IsRecord p j → (p.mapEntries i).Covers x → (p.mapEntries j).Covers x →
    i = j
  guard : ∀ i, IsRecord p i → (p.mapEntries i).growsUp = true →
    (p.mapEntries i).guardPageVirtualAddress = (p.mapEntries i).next ∧
      (p.mapEntries i).next < KERNBASE ∧ p.pgdir.pte (p.mapEntries i).next = none
  guards : ∀ i j, IsRecord p i → IsRecord p j → (p.mapEntries i).growsUp = true →
    (p.mapEntries j).growsUp = true → (p.mapEntries i).next = (p.mapEntries j).next → i = j
  unguarded : ∀ i, IsRecord p i → (p.mapEntries i).growsUp = false →
    (p.mapEntries i).guardPageVirtualAddress = 0

/-- The page `va` is the guard page of a mapping that grows up, and the page behind it is free. -/
def CanGrow (p : Proc) (va : ℕ) : Prop :=
  ∃ i, IsRecord p i ∧ (p.mapEntries i).growsUp = true ∧
    (p.mapEntries i).guardPageVirtualAddress = va ∧ FreeAt p (va + 1)

/-- A page can be allocated, and a page for its page table where there is none. -/
def GrowthMemory (k : Kernel) (c : Slot) (va : ℕ) : Prop :=
  if ((k.proc c).pgdir.table (va / 1024)).isSome then 1 ≤ k.freelist.length else 2 ≤ k.freelist.length

/-- **The mapping with the guard page `va` has grown** onto the page that `kalloc` returns. -/
def GrownOnto (c : Slot) (va : ℕ) (k k' : Kernel) : Prop :=
  ∃ i pa rest, IsRecord (k.proc c) i ∧ ((k.proc c).mapEntries i).growsUp = true ∧
    ((k.proc c).mapEntries i).guardPageVirtualAddress = va ∧ kalloc k.freelist = some (pa, rest) ∧
    (k'.proc c).pgdir.pte va = some pa ∧
    (∀ x, x ≠ va → (k'.proc c).pgdir.pte x = (k.proc c).pgdir.pte x) ∧
    (k'.proc c).mapEntries =
      Function.update (k.proc c).mapEntries i ((k.proc c).mapEntries i).grown ∧
    (∀ q, q ≠ c → k'.proc q = k.proc q) ∧ Agree (k'.proc c)

/-- **Growth on a fault is exact.** -/
def GrowthExact (c : Slot) (va : ℕ) (k : Kernel) : Prop :=
  ∃ k' b, cangrowup c va k = .ok (k', b) ∧
    (b = true ↔ CanGrow (k.proc c) va ∧ GrowthMemory k c va) ∧
    (b = true → GrownOnto c va k k') ∧ (b = false → k' = k)

/-! ### Growth keeps the agreement -/

@[simp] theorem MapEntry.grown_next (m : MapEntry) : m.grown.next = m.next + 1 := by
  show m.startingVirtualAddress + (m.numPages + 1) = m.startingVirtualAddress + m.numPages + 1
  omega

@[simp] theorem MapEntry.grown_growsUp (m : MapEntry) : m.grown.growsUp = m.growsUp := rfl

@[simp] theorem MapEntry.grown_inUse (m : MapEntry) : m.grown.inUse = m.inUse := rfl

theorem MapEntry.grown_covers {m : MapEntry} {x : ℕ} :
    m.grown.Covers x ↔ m.Covers x ∨ x = m.next := by
  have hle : m.startingVirtualAddress ≤ m.next := Nat.le_add_right ..
  unfold MapEntry.Covers
  rw [MapEntry.grown_next, show m.grown.startingVirtualAddress = m.startingVirtualAddress from rfl]
  omega

/-- The process after growth of record `i`. -/
def Proc.grow (p : Proc) (i : ℕ) (d : PgDir) : Proc :=
  { p with pgdir := d, mapEntries := Function.update p.mapEntries i (p.mapEntries i).grown }

theorem Proc.grow_entry (p : Proc) (i j : ℕ) (d : PgDir) :
    (p.grow i d).mapEntries j = if j = i then (p.mapEntries i).grown else p.mapEntries j := by
  show Function.update p.mapEntries i _ j = _
  rw [Function.update_apply]

theorem isRecord_grow (d : PgDir) (j : ℕ) : IsRecord (p.grow i d) j ↔ IsRecord p j := by
  unfold IsRecord
  rw [Proc.grow_entry]
  show j ≤ p.currentMappingIndex ∧ _ ↔ _
  split
  · rename_i h
    rw [h, MapEntry.grown_inUse]
  · rfl

/-- The page behind a guard page that can be grown into. -/
theorem FreeAt.lt (hva : va < KERNBASE) (hfree : FreeAt p (va + 1)) :
    va + 1 < KERNBASE ∧ p.pgdir.pte (va + 1) = none := by
  have hne : va + 1 ≠ KERNBASE := by
    intro h
    have := hfree.2
    rw [h, present_KERNBASE] at this
    cases this
  have hlt : va + 1 < KERNBASE := by omega
  refine ⟨hlt, ?_⟩
  have := hfree.2
  rw [present_of_lt hlt, Option.isSome_eq_false_iff, Option.isNone_iff_eq_none] at this
  exact this

theorem IsRecord.lo (h : IsRecord p i) : MMAPBASE ≤ (p.mapEntries i).next := by
  have hu := h.2
  simp only [MapEntry.inUse, Bool.and_eq_true, decide_eq_true_eq] at hu
  exact hu.1.2.trans (Nat.le_add_right ..)

/-- The guard page is not the guard page of another mapping. -/
theorem FreeAt.not_guard (hfree : FreeAt p va) (hi : IsRecord p i) :
    (p.mapEntries i).guardPageVirtualAddress ≠ va := by
  intro hg
  have hguard : isguardpage p va = true := isguardpage_iff.mpr ⟨i, hi.1, hi.2, hg⟩
  rw [hfree.1] at hguard
  cases hguard

/-- **Growth keeps records and page table in agreement.** -/
theorem Agree.grow (h : Agree p) (hi : IsRecord p i) (hgrows : (p.mapEntries i).growsUp = true)
    (hfree : FreeAt p ((p.mapEntries i).next + 1)) {d : PgDir} {pa : ℕ}
    (hpte : ∀ x, d.pte x = if x = (p.mapEntries i).next then some pa else p.pgdir.pte x) :
    Agree (p.grow i d) := by
  obtain ⟨hguard, hlt, hnone⟩ := h.guard i hi hgrows
  obtain ⟨hlt', hnone'⟩ := FreeAt.lt hlt hfree
  have hdir : (p.grow i d).pgdir = d := rfl
  -- the page behind the mapping belongs to no record
  have hnext : ∀ j, IsRecord p j → ¬(p.mapEntries j).Covers (p.mapEntries i).next := by
    intro j hj hcovers
    have hsome := (h.present _ hi.lo hlt).mpr ⟨j, hj, hcovers⟩
    rw [hnone] at hsome
    cases hsome
  have hcovers : ∀ j x, ((p.grow i d).mapEntries j).Covers x ↔
      (p.mapEntries j).Covers x ∨ j = i ∧ x = (p.mapEntries i).next := by
    intro j x
    rw [Proc.grow_entry]
    split
    · rename_i hj
      rw [MapEntry.grown_covers, hj, and_iff_right rfl]
    · rename_i hj
      rw [or_iff_left fun hj' => hj hj'.1]
  have hgrowsUp : ∀ j, ((p.grow i d).mapEntries j).growsUp = (p.mapEntries j).growsUp := by
    intro j
    rw [Proc.grow_entry]
    split
    · rename_i hj
      rw [MapEntry.grown_growsUp, hj]
    · rfl
  have hthis : (p.grow i d).mapEntries i = (p.mapEntries i).grown := by
    rw [Proc.grow_entry, if_pos rfl]
  have hother : ∀ j, j ≠ i → (p.grow i d).mapEntries j = p.mapEntries j := by
    intro j hj
    rw [Proc.grow_entry, if_neg hj]
  have hends : ∀ j, IsRecord p j → (p.mapEntries j).growsUp = true → j ≠ i →
      (p.mapEntries j).next ≠ (p.mapEntries i).next + 1 := by
    intro j hj hj' _
    rw [← (h.guard j hj hj').1]
    exact hfree.not_guard hj
  constructor
  case index =>
    intro j hj
    exact h.index j ((isRecord_grow d j).mp hj)
  case within =>
    intro j hj
    rw [isRecord_grow] at hj
    by_cases hji : j = i
    · rw [hji, hthis, MapEntry.grown_next]
      exact hlt
    · rw [hother j hji]
      exact h.within j hj
  case present =>
    intro x hlo hhi
    rw [hdir, hpte]
    by_cases hx : x = (p.mapEntries i).next
    · rw [if_pos hx]
      exact iff_of_true rfl ⟨i, (isRecord_grow d i).mpr hi, (hcovers i x).mpr (.inr ⟨rfl, hx⟩)⟩
    · rw [if_neg hx, h.present x hlo hhi]
      apply exists_congr
      intro j
      rw [isRecord_grow, hcovers, or_iff_left fun hj => hx hj.2]
  case apart =>
    intro j l x hj hl hjx hlx
    rw [isRecord_grow] at hj hl
    rw [hcovers] at hjx hlx
    rcases hjx with hjx | ⟨rfl, rfl⟩
    · rcases hlx with hlx | ⟨rfl, rfl⟩
      · exact h.apart j l x hj hl hjx hlx
      · exact absurd hjx (hnext j hj)
    · rcases hlx with hlx | ⟨rfl, -⟩
      · exact absurd hlx (hnext l hl)
      · rfl
  case guard =>
    intro j hj hj'
    rw [isRecord_grow] at hj
    rw [hgrowsUp] at hj'
    rw [hdir, hpte]
    by_cases hji : j = i
    · rw [hji, hthis, MapEntry.grown_next, if_neg (Nat.succ_ne_self _)]
      refine ⟨?_, hlt', hnone'⟩
      show (p.mapEntries i).guardPageVirtualAddress + 1 = _
      rw [hguard]
    · obtain ⟨hg, hl, hn⟩ := h.guard j hj hj'
      rw [hother j hji, if_neg fun he => hji (h.guards j i hj hi hj' hgrows he)]
      exact ⟨hg, hl, hn⟩
  case guards =>
    intro j l hj hl hj' hl' he
    rw [isRecord_grow] at hj hl
    rw [hgrowsUp] at hj' hl'
    by_cases hji : j = i
    · by_cases hli : l = i
      · rw [hji, hli]
      · rw [hji, hthis, MapEntry.grown_next, hother l hli] at he
        exact absurd he.symm (hends l hl hl' hli)
    · by_cases hli : l = i
      · rw [hli, hthis, MapEntry.grown_next, hother j hji] at he
        exact absurd he (hends j hj hj' hji)
      · rw [hother j hji, hother l hli] at he
        exact h.guards j l hj hl hj' hl' he
  case unguarded =>
    intro j hj hj'
    rw [isRecord_grow] at hj
    rw [hgrowsUp] at hj'
    have hji : j ≠ i := by
      intro he
      rw [he, hgrows] at hj'
      cases hj'
    rw [hother j hji]
    exact h.unguarded j hj hj'

/-! ### What growth does -/

theorem canGrow_iff (h : Agree p) : CanGrow p va ↔
    ∃ i ≤ p.currentMappingIndex, growsInto p va (p.mapEntries i) = true := by
  have hfree : canallocatva p (va + 1) 1 = true ↔ FreeAt p (va + 1) := by
    rw [canallocatva_iff]
    constructor
    · intro hall
      exact hall 0 Nat.one_pos
    · intro hfree j hj
      rw [show j = 0 by omega]
      exact hfree
  constructor
  · intro ⟨i, hi, hgrows, hguard, hnext⟩
    refine ⟨i, hi.1, growsInto_iff.mpr ⟨hi.2, hgrows, ?_, hfree.mpr hnext⟩⟩
    rw [← hguard]
    exact (h.guard i hi hgrows).1
  · intro ⟨i, hi, hg⟩
    obtain ⟨hu, hgrows, hva, hnext⟩ := growsInto_iff.mp hg
    refine ⟨i, ⟨hi, hu⟩, hgrows, ?_, hfree.mp hnext⟩
    rw [hva]
    exact (h.guard i ⟨hi, hu⟩ hgrows).1

theorem cangrowup_refuses (h : Agree (k.proc c)) (hnot : ¬CanGrow (k.proc c) va) :
    cangrowup c va k = .ok (k, false) := by
  have hnone : (List.range ((k.proc c).currentMappingIndex + 1)).find?
      (fun i => growsInto (k.proc c) va ((k.proc c).mapEntries i)) = none := by
    rw [List.find?_eq_none]
    intro i hi hg
    rw [List.mem_range, Nat.lt_succ_iff] at hi
    exact hnot ((canGrow_iff h).mpr ⟨i, hi, hg⟩)
  unfold cangrowup
  dsimp only
  rw [hnone]

/-- Growth goes on without a page, if the page table is there.  A failure takes what is left of the free
list. -/
theorem cangrowup_returns (h : Agree (k.proc c)) (hcan : CanGrow (k.proc c) va) :
    ∃ k' b, cangrowup c va k = .ok (k', b) ∧
      (b = true ↔ ((k.proc c).pgdir.table (va / 1024)).isSome ∨ 2 ≤ k.freelist.length) ∧
      (b = false → k'.freelist = []) := by
  obtain ⟨j, hj, hgj⟩ := (canGrow_iff h).mp hcan
  have hfound : ((List.range ((k.proc c).currentMappingIndex + 1)).find?
      fun i => growsInto (k.proc c) va ((k.proc c).mapEntries i)).isSome :=
    List.find?_isSome.mpr ⟨j, List.mem_range.mpr (Nat.lt_succ_iff.mpr hj), hgj⟩
  obtain ⟨i, hfind⟩ := Option.isSome_iff_exists.mp hfound
  have hi := List.mem_range.mp (List.mem_of_find?_eq_some hfind)
  have hg := List.find?_some hfind
  obtain ⟨hu, hgrows, hva, -⟩ := growsInto_iff.mp hg
  have hrecord : IsRecord (k.proc c) i := ⟨Nat.lt_succ_iff.mp hi, hu⟩
  obtain ⟨-, hlt, hnone⟩ := h.guard i hrecord hgrows
  rw [show ((k.proc c).mapEntries i).next = va from hva.symm] at hlt hnone
  unfold cangrowup
  dsimp only
  rw [hfind]
  dsimp only
  rw [← hva]
  obtain ⟨⟨d, fl, b⟩, hmap⟩ : ∃ r, mappages (k.proc c).pgdir va
      ((kalloc k.freelist).getD (nullPage, k.freelist)).1
      ((kalloc k.freelist).getD (nullPage, k.freelist)).2 = .ok r := mappages_free hlt hnone
  have hb : b = true ↔ ((k.proc c).pgdir.table (va / 1024)).isSome ∨ 2 ≤ k.freelist.length := by
    rcases mappages_table hmap with ⟨hsome, -, -, rfl⟩ | ⟨htable, hcase⟩
    · exact iff_of_true rfl (.inl hsome)
    · rw [htable]
      have hlen : 2 ≤ k.freelist.length ↔ ((kalloc k.freelist).getD (nullPage, k.freelist)).2 ≠ [] := by
        rcases k.freelist with _ | ⟨a, _ | ⟨t, rest⟩⟩ <;> simp [kalloc]
      rw [hlen]
      rcases hcase with ⟨hnil, rfl⟩ | ⟨t, hcons, -, rfl⟩
      · simp [hnil]
      · simp [hcons]
  have hnil : b = false → fl = [] := by
    intro hf
    obtain ⟨-, -, ⟨ht, -⟩ | ⟨-, -, hfl, hnil, -⟩⟩ := mappages_ok hmap
    · rw [hf] at ht
      cases ht
    · rw [hfl, hnil]
  rw [hmap, ok_bind]
  dsimp only
  cases b with
  | true =>
    rw [if_pos rfl, setEntry, if_pos (h.index i hrecord), ok_bind]
    refine ⟨_, _, rfl, hb, ?_⟩
    intro he
    cases he
  | false =>
    rw [if_neg Bool.false_ne_true]
    exact ⟨_, _, rfl, hb, hnil⟩

theorem cangrowup_of_empty (h : cangrowup c va k = .ok (k', false)) (hnil : k.freelist = []) :
    k' = k := by
  obtain ⟨-, hk⟩ | ⟨i, -, -, pa, fl, -, ⟨-, -, hk⟩ | ⟨hb, -⟩⟩ := cangrowup_ok h
  · exact hk
  · rw [hk, ← hnil, Kernel.withDir_self]
  · cases hb

/-- **A growth that has found a page** is exact. -/
theorem cangrowup_grown (h : Agree (k.proc c)) (hrun : cangrowup c va k = .ok (k', true))
    (hne : k.freelist ≠ []) : GrownOnto c va k k' := by
  obtain ⟨hb, -⟩ | ⟨i, hi, hg, pa, fl, htakes, ⟨hb, -⟩ | ⟨-, -, -, -, d, fl', hmapped, rfl⟩⟩ :=
    cangrowup_ok hrun
  · cases hb
  · cases hb
  · obtain ⟨hu, hgrows, hva, hnext⟩ := growsInto_iff.mp hg
    have hrecord : IsRecord (k.proc c) i := ⟨hi, hu⟩
    obtain ⟨hguard, -, -⟩ := h.guard i hrecord hgrows
    change va = ((k.proc c).mapEntries i).next at hva
    have hkalloc : kalloc k.freelist = some (pa, fl) := by
      rcases htakes with hcons | ⟨hnil, -⟩
      · rw [hcons]
        rfl
      · exact absurd hnil hne
    have hpte : ∀ x, d.pte x = if x = va then some pa else (k.proc c).pgdir.pte x := by
      intro x
      rw [hmapped.pte, List.length_singleton]
      by_cases hx : x = va
      · rw [if_pos (by omega), if_pos hx, hx, Nat.sub_self]
        rfl
      · rw [if_neg (by omega), if_neg hx]
    have hproc : ((k.withDir c d fl' k.mem).withEntry c i ((k.proc c).mapEntries i).grown).proc c =
        (k.proc c).grow i d := by
      rw [Kernel.withEntry, Kernel.modify_self, Kernel.withDir_self_proc]
      rfl
    refine ⟨i, pa, fl, hrecord, hgrows, hguard.trans hva.symm, hkalloc, ?_, ?_, ?_, ?_, ?_⟩
    · rw [hproc]
      exact (hpte va).trans (if_pos rfl)
    · intro x hx
      rw [hproc]
      exact (hpte x).trans (if_neg hx)
    · rw [hproc]
      rfl
    · intro q hq
      rw [Kernel.withEntry, Kernel.modify_of_ne _ hq, Kernel.withDir_proc_of_ne _ _ _ _ _ hq]
    · rw [hproc]
      apply h.grow hrecord hgrows
      · rw [← hva]
        exact ((canallocatva_iff (n := 1)).mp (hva ▸ hnext)) 0 Nat.one_pos
      · rw [← hva]
        exact hpte

/-- **When growth on a fault is exact**: unless the page table is there and no page is left, or the page
table is missing and one page is left. -/
theorem growth_exact_iff (c : Slot) (addr : ℕ) (k : Kernel) (h : Agree (k.proc c)) :
    GrowthExact c (addr / PGSIZE) k ↔ (CanGrow (k.proc c) (addr / PGSIZE) →
      if ((k.proc c).pgdir.table (addr / PGSIZE / 1024)).isSome then k.freelist ≠ []
      else k.freelist.length ≠ 1) := by
  generalize addr / PGSIZE = va
  constructor
  · intro ⟨k₁, b₁, hrun₁, hb₁, _, hsame⟩ hcan
    obtain ⟨k', b, hrun, hb, hnil⟩ := cangrowup_returns h hcan
    obtain ⟨rfl, rfl⟩ := Prod.mk.inj (Except.ok.inj (hrun.symm.trans hrun₁))
    split
    · rename_i htable
      intro hempty
      have hmemory := (hb₁.mp (hb.mpr (.inl htable))).2
      rw [GrowthMemory, if_pos htable, hempty] at hmemory
      cases hmemory
    · rename_i htable
      intro hone
      cases b with
      | true =>
        rcases hb.mp rfl with htable' | htwo
        · exact htable htable'
        · omega
      | false =>
        rw [← hsame rfl, hnil rfl] at hone
        cases hone
  · intro hcond
    by_cases hcan : CanGrow (k.proc c) va
    · obtain ⟨k', b, hrun, hb, -⟩ := cangrowup_returns h hcan
      have hc := hcond hcan
      have hmemory : GrowthMemory k c va ↔ b = true := by
        rw [hb, GrowthMemory]
        split at hc
        · rename_i htable
          rw [if_pos htable]
          exact iff_of_true (List.length_pos_iff.mpr hc) (.inl htable)
        · rename_i htable
          rw [if_neg htable, or_iff_right htable]
      refine ⟨k', b, hrun, ?_, ?_, ?_⟩
      · rw [and_iff_right hcan, hmemory]
      · rintro rfl
        apply cangrowup_grown h hrun
        intro hnil
        have hpages := hmemory.mpr rfl
        rw [GrowthMemory, hnil] at hpages
        split at hpages <;> cases hpages
      · rintro rfl
        apply cangrowup_of_empty hrun
        by_contra hne
        have hpos := List.length_pos_iff.mpr hne
        refine Bool.false_ne_true (hmemory.mp ?_)
        rw [GrowthMemory]
        split
        · exact hpos
        · rename_i htable
          rw [if_neg htable] at hc
          omega
    · refine ⟨k, false, cangrowup_refuses h hcan, ?_, ?_, fun _ => rfl⟩
      · exact iff_of_false Bool.false_ne_true fun hand => hcan hand.1
      · intro hf
        cases hf

/-- A kernel with all page tables, where the process has one page mapped with `MAP_GROWSUP`. -/
def grower (freelist : List ℕ) : Kernel :=
  let k := tabled fun x => if x = MMAPBASE then some 400 else none
  { k with freelist }.modify 0 fun p =>
    { p with
      mapEntries := Function.update p.mapEntries 0
        ⟨MAP_PRIVATE ||| MAP_ANONYMOUS ||| MAP_GROWSUP, MMAPBASE, 1, -1, true, MMAPBASE + 1⟩
      currentMappingIndex := 1 }

theorem grower_record {fl : List ℕ} : IsRecord ((grower fl).proc 0) i ↔ i = 0 := by
  constructor
  · intro ⟨hi, hu⟩
    cases i with
    | zero => rfl
    | succ i => cases hu
  · rintro rfl
    exact ⟨Nat.zero_le _, rfl⟩

theorem grower_pte {fl : List ℕ} (x : ℕ) :
    ((grower fl).proc 0).pgdir.pte x = if x = MMAPBASE then some 400 else none := rfl

theorem grower_agree (fl : List ℕ) : Agree ((grower fl).proc 0) := by
  have hcovers : ∀ x, (((grower fl).proc 0).mapEntries 0).Covers x ↔ x = MMAPBASE := by
    intro x
    show MMAPBASE ≤ x ∧ x < MMAPBASE + 1 ↔ x = MMAPBASE
    omega
  constructor
  case index =>
    intro j hj
    rw [grower_record.mp hj]
    decide
  case within =>
    intro j hj
    rw [grower_record.mp hj]
    show MMAPBASE + 1 ≤ KERNBASE
    decide
  case present =>
    intro x _ _
    rw [grower_pte]
    constructor
    · intro hsome
      refine ⟨0, grower_record.mpr rfl, (hcovers x).mpr ?_⟩
      by_contra hx
      rw [if_neg hx] at hsome
      cases hsome
    · intro ⟨j, hj, hx⟩
      rw [grower_record.mp hj, hcovers] at hx
      rw [if_pos hx]
      rfl
  case apart =>
    intro j l x hj hl _ _
    rw [grower_record.mp hj, grower_record.mp hl]
  case guard =>
    intro j hj _
    rw [grower_record.mp hj]
    exact ⟨rfl, by show MMAPBASE + 1 < KERNBASE; decide, rfl⟩
  case guards =>
    intro j l hj hl _ _ _
    rw [grower_record.mp hj, grower_record.mp hl]
  case unguarded =>
    intro j hj hj'
    rw [grower_record.mp hj] at hj'
    change has (MAP_PRIVATE ||| MAP_ANONYMOUS ||| MAP_GROWSUP) MAP_GROWSUP = false at hj'
    exact absurd hj' (by decide)

theorem growth_exact_page : GrowthExact 0 (0x60001fff / PGSIZE) (grower [500]) :=
  (growth_exact_iff 0 0x60001fff (grower [500]) (grower_agree [500])).mpr fun _ => by
    have htable : (((grower [500]).proc 0).pgdir.table (0x60001fff / PGSIZE / 1024)).isSome := rfl
    rw [if_pos htable]
    exact List.cons_ne_nil 500 []

/-- No page is left: the guard page is mapped to the page behind the null pointer, and growth succeeds. -/
theorem growth_maps_null : ¬∀ (c : Slot) (addr : ℕ) (k : Kernel), Agree (k.proc c) →
    GrowthExact c (addr / PGSIZE) k := by
  intro hall
  obtain ⟨k₁, b₁, hrun₁, hb₁, -, -⟩ := hall 0 0x60001000 (grower []) (grower_agree [])
  have hcan : CanGrow ((grower []).proc 0) (0x60001000 / PGSIZE) := by
    refine ⟨0, grower_record.mpr rfl, rfl, rfl, by decide, ?_⟩
    rw [present_of_lt (by decide)]
    rfl
  obtain ⟨k', b, hrun, hb, -⟩ := cangrowup_returns (grower_agree []) hcan
  obtain ⟨rfl, rfl⟩ := Prod.mk.inj (Except.ok.inj (hrun.symm.trans hrun₁))
  have hmemory := (hb₁.mp (hb.mpr (.inl rfl))).2
  cases hmemory

end OperatingSystems.Vm
