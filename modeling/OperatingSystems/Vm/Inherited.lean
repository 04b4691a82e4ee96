import Mathlib
import OperatingSystems.Vm.Copying
import OperatingSystems.Vm.Forks
import OperatingSystems.Vm.Settled

/-!
# The mappings of a child

What a process has of its parent's mappings after `fork`, when the copy is completed.

* **`Inherited`** — the records that have been copied so far, with their pages.
* **`copyEntries_done`** — the loop over the records, where there is room for the copy.
-/

namespace OperatingSystems.Vm

open Outcomes Custody

variable {k k' k₀ : Kernel} {c np parent child : Slot} {d : PgDir} {p p' : Proc} {m : MapEntry}
  {ms done : List MapEntry}

/-! ### Room for the copies of several mappings -/

def tablesOf (ms : List MapEntry) : Finset ℕ :=
  ms.foldr (fun m pdxs => m.tables ∪ pdxs) ∅

def windowsOf (p : Proc) (ms : List MapEntry) : Finset ℕ :=
  ms.foldr (fun m pdxs => m.windowTables p ∪ pdxs) ∅

/-- The pages that the copies of the mappings take off the free list: those of the private mappings, and the
page tables that are missing in the child's directory `d` and in the parent's directory `e`. -/
def copyPages (p : Proc) (d e : PgDir) (ms : List MapEntry) : ℕ :=
  (ms.map MapEntry.freshPages).sum + (missing d (tablesOf ms)).card + (missing e (windowsOf p ms)).card

/-! ### What has been copied -/

/-- **The mappings `done` of process `c` have been copied** for its child `np`, since the state `k₀`. -/
structure Inherited (c np : Slot) (k₀ : Kernel) (done : List MapEntry) (k : Kernel) : Prop where
  rest : ∃ fl mem proc, k = { k₀ with freelist := fl, mem := mem, proc := proc }
  others : ∀ q, q ≠ c → q ≠ np → k.proc q = k₀.proc q
  parent : ∃ e, k.proc c = { k₀.proc c with pgdir := e } ∧ e.pte = (k₀.proc c).pgdir.pte
  child : ∃ d entries, k.proc np =
    { k₀.proc np with pgdir := d, mapEntries := entries, currentMappingIndex := done.length }
  entries : ∀ i, (k.proc np).mapEntries i = (done[i]?).getD ((k₀.proc np).mapEntries i)
  outside : ∀ x, (∀ m ∈ done, ¬m.Covers x) → (k.proc np).pgdir.pte x = (k₀.proc np).pgdir.pte x
  suffix : k.freelist <:+ k₀.freelist
  memory : ∀ q, q ∉ k₀.freelist → k.mem q = k₀.mem q
  copied : ∀ m ∈ done, has m.flags MAP_PRIVATE = true → ∀ x, m.Covers x → ∃ pa pb,
    (k₀.proc c).pgdir.pte x = some pa ∧ (k.proc np).pgdir.pte x = some pb ∧ pb ∈ k₀.freelist ∧
      pb ∉ k.freelist ∧ ∀ o < PGSIZE, k.mem pb o = k₀.mem pa o
  shared : ∀ m ∈ done, has m.flags MAP_PRIVATE = false → has m.flags MAP_SHARED = true → ∀ x, m.Covers x →
    (k.proc np).pgdir.pte x = (k₀.proc c).pgdir.pte x

theorem Inherited.start (h : (k₀.proc np).currentMappingIndex = 0) : Inherited c np k₀ [] k₀ := by
  refine ⟨⟨_, _, _, rfl⟩, fun _ _ _ => rfl, ⟨_, rfl, rfl⟩, ⟨(k₀.proc np).pgdir, (k₀.proc np).mapEntries, ?_⟩,
    fun _ => rfl, fun _ _ => rfl, List.suffix_refl _, fun _ _ => rfl, ?_, ?_⟩
  · rw [List.length_nil, ← h]
  · exact fun m hm => absurd hm List.not_mem_nil
  · exact fun m hm => absurd hm List.not_mem_nil

/-- The window is looked for in the same places. -/
theorem findfreevirtualaddress_congr (hentries : p'.mapEntries = p.mapEntries)
    (hindex : p'.currentMappingIndex = p.currentMappingIndex) (hpte : p'.pgdir.pte = p.pgdir.pte) (n : ℕ) :
    findfreevirtualaddress p' n = findfreevirtualaddress p n := by
  have hpresent : ∀ va, present p'.pgdir va = present p.pgdir va := by
    intro va
    by_cases hva : va < KERNBASE
    · rw [present_of_lt hva, present_of_lt hva, hpte]
    · unfold present walkpgdir
      rw [if_neg hva, if_neg hva]
  have hcan : ∀ va, canallocatva p' va n = canallocatva p va n := by
    intro va
    unfold canallocatva isguardpage
    rw [hentries, hindex]
    simp only [hpresent]
  unfold findfreevirtualaddress
  simp only [hcan]

/-! ### One record -/

/-- A record is written behind the others. -/
def Kernel.addRecord (k : Kernel) (c : Slot) (m : MapEntry) : Kernel :=
  k.modify c fun p => { p with
    mapEntries := Function.update p.mapEntries p.currentMappingIndex m
    currentMappingIndex := p.currentMappingIndex + 1 }

/-- The loop over the records, at one that is in use. -/
theorem copyEntries_record (huse : m.inUse = true) (hroom : (k.proc child).currentMappingIndex < NMAP) :
    copyEntries parent child (m :: ms) k = (copyMapping parent child m (k.addRecord child m) >>= fun r =>
      if r.2 then copyEntries parent child ms r.1 else .ok (r.1, false)) := by
  have hrecord : (Kernel.modify (k.modify child fun p => { p with
      mapEntries := Function.update p.mapEntries (k.proc child).currentMappingIndex m }) child fun p =>
      { p with currentMappingIndex := p.currentMappingIndex + 1 }) = k.addRecord child m := by
    unfold Kernel.addRecord Kernel.modify
    dsimp only
    rw [Function.update_self, Function.update_idem]
  rw [copyEntries, if_pos huse, setEntry, if_pos hroom, ok_bind]
  dsimp only
  rw [hrecord]
  rfl

theorem Inherited.index (h : Inherited c np k₀ done k) :
    (k.proc np).currentMappingIndex = done.length := by
  obtain ⟨d, entries, hchild⟩ := h.child
  rw [hchild]

/-- **There is room for the next mapping**: what the copy relies on, in terms of the state before all copies. -/
structure CanInherit (c np : Slot) (k₀ : Kernel) (m : MapEntry) : Prop where
  ends : m.next ≤ KERNBASE
  fresh : ∀ x, m.Covers x → (k₀.proc np).pgdir.pte x = none
  source : ∀ x, m.Covers x → ((k₀.proc c).pgdir.pte x).isSome
  window : m.HasWindow (k₀.proc c)
  unused : ∀ q ∈ k₀.freelist, ∀ x, m.Covers x → (k₀.proc c).pgdir.pte x ≠ some q

theorem addRecord_pgdir (q : Slot) : ((k.addRecord np m).proc q).pgdir = (k.proc q).pgdir := by
  unfold Kernel.addRecord
  by_cases hq : q = np
  · rw [hq, Kernel.modify_self]
  · rw [Kernel.modify_of_ne _ hq]

theorem Inherited.canCopy (hne : np ≠ c) (h : Inherited c np k₀ done k) (hm : CanInherit c np k₀ m)
    (hapart : ∀ m' ∈ done, ∀ x, m.Covers x → ¬m'.Covers x) (hnodup : k₀.freelist.Nodup)
    (hroom : m.freshPages + (missing (k.proc np).pgdir m.tables).card +
      (missing (k.proc c).pgdir (m.windowTables (k₀.proc c))).card ≤ k.freelist.length) :
    CanCopy c np m (k.addRecord np m) ∧
      m.windowTables ((k.addRecord np m).proc c) = m.windowTables (k₀.proc c) := by
  obtain ⟨e, hparent, hpte⟩ := h.parent
  have hproc : (k.addRecord np m).proc c = { k₀.proc c with pgdir := e } :=
    (Kernel.modify_of_ne _ hne.symm _).trans hparent
  have hdirc : ((k.addRecord np m).proc c).pgdir.pte = (k₀.proc c).pgdir.pte := by
    rw [hproc]
    exact hpte
  have hfind : ∀ n, findfreevirtualaddress ((k.addRecord np m).proc c) n =
      findfreevirtualaddress (k₀.proc c) n := by
    intro n
    apply findfreevirtualaddress_congr _ _ hdirc
    · rw [hproc]
    · rw [hproc]
  have hwindow : m.windowTables ((k.addRecord np m).proc c) = m.windowTables (k₀.proc c) := by
    unfold MapEntry.windowTables
    rw [hfind]
  refine ⟨⟨hm.ends, fun x hx => ?_, fun x hx => ?_, fun hprivate => ?_, ?_, ?_, fun q hq x hx => ?_⟩, hwindow⟩
  · rw [addRecord_pgdir, h.outside x fun m' hm' => hapart m' hm' x hx]
    exact hm.fresh x hx
  · rw [hdirc]
    exact hm.source x hx
  · rw [hfind]
    exact hm.window hprivate
  · rw [hwindow, addRecord_pgdir, addRecord_pgdir]
    exact hroom
  · exact hnodup.sublist h.suffix.sublist
  · rw [hdirc]
    exact hm.unused q (h.suffix.subset hq) x hx

/-- **The next mapping has been copied.** -/
theorem Inherited.snoc (hne : np ≠ c) (h : Inherited c np k₀ done k)
    (hcopied : CopiedPages c np m (k.addRecord np m) k')
    (hm : CanInherit c np k₀ m) (hapart : ∀ m' ∈ done, ∀ x, m.Covers x → ¬m'.Covers x) :
    Inherited c np k₀ (done ++ [m]) k' := by
  obtain ⟨e, hparent, hpte⟩ := h.parent
  obtain ⟨d, entries, hchild⟩ := h.child
  obtain ⟨fl, mem, proc, hk⟩ := h.rest
  obtain ⟨d', e', fl', mem', hk'⟩ := hcopied.dirs
  have hproc : (k.addRecord np m).proc c = { k₀.proc c with pgdir := e } :=
    (Kernel.modify_of_ne _ hne.symm _).trans hparent
  have hfl : (k.addRecord np m).freelist = k.freelist := rfl
  have hmem : (k.addRecord np m).mem = k.mem := rfl
  have hc' : k'.proc c = { k₀.proc c with pgdir := e' } := by
    rw [hk', Kernel.withDirs_parent_of_ne _ _ _ _ _ hne, hproc]
  have hnp' : k'.proc np = { (k.addRecord np m).proc np with pgdir := d' } := by
    rw [hk', Kernel.withDirs_child _ _ _ _ _ hne]
  have hrecord : (k.addRecord np m).proc np = { k₀.proc np with
      pgdir := d
      mapEntries := Function.update entries done.length m
      currentMappingIndex := done.length + 1 } := by
    unfold Kernel.addRecord
    rw [Kernel.modify_self, hchild]
  have hsrc : ((k.addRecord np m).proc c).pgdir.pte = (k₀.proc c).pgdir.pte := by
    rw [hproc]
    exact hpte
  have hkeeps : ∀ x, ¬m.Covers x → (k'.proc np).pgdir.pte x = (k.proc np).pgdir.pte x := by
    intro x hx
    rw [hcopied.outside x hx, addRecord_pgdir]
  refine ⟨⟨k'.freelist, k'.mem, k'.proc, ?_⟩, fun q hc hnp => ?_, ⟨e', hc', ?_⟩,
    ⟨d', Function.update entries done.length m, ?_⟩, fun i => ?_, fun x hx => ?_,
    hcopied.suffix.trans h.suffix, fun q hq => ?_, ?_, ?_⟩
  · rw [hk', hk]
    rfl
  · rw [hk', Kernel.withDirs_of_ne _ _ _ _ _ hc hnp, Kernel.addRecord, Kernel.modify_of_ne _ hnp]
    exact h.others q hc hnp
  · have hclosed := hcopied.closed
    rw [hsrc, hc'] at hclosed
    exact hclosed
  · rw [hnp', hrecord, List.length_append, List.length_singleton]
  · have hold := h.entries i
    rw [hchild] at hold
    rw [hnp', hrecord]
    show Function.update entries done.length m i = _
    rcases lt_trichotomy i done.length with hlt | rfl | hgt
    · rw [Function.update_of_ne hlt.ne, List.getElem?_append_left hlt]
      exact hold
    · rw [Function.update_self, List.getElem?_append_right (le_refl _), Nat.sub_self]
      rfl
    · rw [Function.update_of_ne hgt.ne', List.getElem?_eq_none (by simp; omega)]
      rw [List.getElem?_eq_none (by omega)] at hold
      exact hold
  · rw [hkeeps x (hx m (List.mem_append.mpr (.inr (List.mem_singleton.mpr rfl))))]
    exact h.outside x fun m' hm' => hx m' (List.mem_append.mpr (.inl hm'))
  · rw [hcopied.others q fun hin => hq (h.suffix.subset hin)]
    exact h.memory q hq
  · intro m' hm' hprivate x hx
    rcases List.mem_append.mp hm' with hdone | hlast
    · obtain ⟨pa, pb, hpa, hpb, hfrom, hnot, hbytes⟩ := h.copied m' hdone hprivate x hx
      refine ⟨pa, pb, hpa, ?_, hfrom, fun hin => hnot (hcopied.suffix.subset hin), fun o ho => ?_⟩
      · rw [hkeeps x fun hmx => hapart m' hdone x hmx hx]
        exact hpb
      · rw [hcopied.others pb hnot]
        exact hbytes o ho
    · rw [List.mem_singleton.mp hlast] at hprivate hx
      obtain ⟨pa, pb, hpa, hpb, hfrom, hnot, hbytes⟩ := hcopied.copied hprivate x hx
      rw [hsrc] at hpa
      refine ⟨pa, pb, hpa, hpb, h.suffix.subset hfrom, hnot, fun o ho => ?_⟩
      rw [hbytes o ho, hmem, h.memory pa fun hin => hm.unused pa hin x hx hpa]
  · intro m' hm' hprivate hshared x hx
    rcases List.mem_append.mp hm' with hdone | hlast
    · rw [hkeeps x fun hmx => hapart m' hdone x hmx hx]
      exact h.shared m' hdone hprivate hshared x hx
    · rw [List.mem_singleton.mp hlast] at hprivate hshared hx
      rw [hcopied.shared hprivate hshared x hx, hsrc]

/-! ### All records -/

/-- No page is in two of the mappings. -/
def Apart (ms : List MapEntry) : Prop :=
  ms.Pairwise fun m m' => ∀ x, m.Covers x → ¬m'.Covers x

theorem copyPages_cons (d' e' : PgDir) {e : PgDir} (hd : Adds d d' m.tables)
    (he : Adds e e' (m.windowTables p)) :
    copyPages p d e (m :: ms) =
      m.freshPages + (missing d m.tables).card + (missing e (m.windowTables p)).card +
        copyPages p d' e' ms := by
  unfold copyPages
  rw [List.map_cons, List.sum_cons, show tablesOf (m :: ms) = m.tables ∪ tablesOf ms from rfl,
    show windowsOf p (m :: ms) = m.windowTables p ∪ windowsOf p ms from rfl, missing_union hd, missing_union he]
  omega

theorem copyPages_head_le (p : Proc) (d e : PgDir) (m : MapEntry) (ms : List MapEntry) :
    m.freshPages + (missing d m.tables).card + (missing e (m.windowTables p)).card ≤
      copyPages p d e (m :: ms) := by
  have htables : (missing d m.tables).card ≤ (missing d (tablesOf (m :: ms))).card :=
    missing_mono Finset.subset_union_left
  have hwindows : (missing e (m.windowTables p)).card ≤ (missing e (windowsOf p (m :: ms))).card :=
    missing_mono Finset.subset_union_left
  unfold copyPages
  rw [List.map_cons, List.sum_cons]
  omega

/-- **The loop over the records** comes to its end where there is room for all copies. -/
theorem copyEntries_done (hne : np ≠ c) (h : Inherited c np k₀ done k)
    (hms : ∀ m ∈ ms, m.inUse = true → CanInherit c np k₀ m) (hnodup : k₀.freelist.Nodup)
    (hapart : Apart (done ++ ms.filter MapEntry.inUse))
    (hfew : (done ++ ms.filter MapEntry.inUse).length ≤ NMAP)
    (hroom : copyPages (k₀.proc c) (k.proc np).pgdir (k.proc c).pgdir (ms.filter MapEntry.inUse) ≤
      k.freelist.length) :
    ∃ k', copyEntries c np ms k = .ok (k', true) ∧
      Inherited c np k₀ (done ++ ms.filter MapEntry.inUse) k' ∧
      k.freelist.length = copyPages (k₀.proc c) (k.proc np).pgdir (k.proc c).pgdir (ms.filter MapEntry.inUse) +
        k'.freelist.length := by
  induction ms generalizing done k with
  | nil =>
    refine ⟨k, rfl, ?_, (Nat.zero_add _).symm⟩
    rw [List.filter_nil, List.append_nil]
    exact h
  | cons m ms ih =>
    have hrest : ∀ m ∈ ms, m.inUse = true → CanInherit c np k₀ m :=
      fun m' hm' => hms m' (List.mem_cons_of_mem _ hm')
    cases huse : m.inUse with
    | false =>
      have hskip : ¬m.inUse = true := Bool.eq_false_iff.mp huse
      rw [List.filter_cons_of_neg hskip] at hapart hfew hroom ⊢
      rw [copyEntries, if_neg hskip]
      exact ih h hrest hapart hfew hroom
    | true =>
      rw [List.filter_cons_of_pos huse] at hapart hfew hroom ⊢
      have hm := hms m List.mem_cons_self huse
      have hdone : ∀ m' ∈ done, ∀ x, m.Covers x → ¬m'.Covers x := by
        intro m' hm' x hx hx'
        exact (List.pairwise_append.mp hapart).2.2 m' hm' m List.mem_cons_self x hx' hx
      obtain ⟨hcan, hwindow⟩ := h.canCopy hne hm hdone hnodup
        ((copyPages_head_le _ _ _ m _).trans hroom)
      obtain ⟨k₁, hrun, hcopied⟩ := copyMapping_done hne hcan
      have hlt : (k.proc np).currentMappingIndex < NMAP := by
        rw [h.index]
        rw [List.length_append, List.length_cons] at hfew
        omega
      have htables := hcopied.tables
      have hopened := hcopied.window
      have hcount := hcopied.count
      rw [hwindow, addRecord_pgdir] at hopened hcount
      rw [addRecord_pgdir] at htables hcount
      rw [copyPages_cons _ _ htables hopened] at hroom ⊢
      rw [show (k.addRecord np m).freelist = k.freelist from rfl] at hcount
      rw [List.append_cons] at hapart hfew ⊢
      obtain ⟨k', hloop, hall, htaken⟩ := ih (h.snoc hne hcopied hm hdone) hrest hapart hfew (by omega)
      refine ⟨k', ?_, hall, by omega⟩
      rw [copyEntries_record huse hlt, hrun]
      exact hloop

/-! ### The image of the child -/

/-- What a function on a new directory has taken off the free list. -/
structure Built (k k' : Kernel) (taken : ℕ) : Prop where
  rest : ∃ fl mem, k' = { k with freelist := fl, mem := mem }
  suffix : k'.freelist <:+ k.freelist
  count : k.freelist.length = taken + k'.freelist.length
  memory : ∀ q, q ∉ k.freelist → k'.mem q = k.mem q

theorem Built.trans {k'' : Kernel} {m n : ℕ} (h : Built k k' m) (h' : Built k' k'' n) :
    Built k k'' (m + n) := by
  obtain ⟨fl, mem, rfl⟩ := h.rest
  obtain ⟨fl', mem', rfl⟩ := h'.rest
  refine ⟨⟨fl', mem', rfl⟩, h'.suffix.trans h.suffix, ?_, fun q hq => ?_⟩
  · rw [h.count, h'.count, Nat.add_assoc]
  · rw [h'.memory q fun hin => hq (h.suffix.subset hin)]
    exact h.memory q hq

theorem buildImage_some {contents : ℕ → Page} {va n : ℕ} {d' : PgDir}
    (h : buildImage d contents va n k = .ok (k', some d')) :
    Built k k' (n + (missing d (tablesAt va n)).card) ∧ ∀ x, va + n ≤ x → d'.pte x = d.pte x := by
  induction n generalizing va d k with
  | zero =>
    cases h
    refine ⟨⟨⟨_, _, rfl⟩, List.suffix_refl _, ?_, fun _ _ => rfl⟩, fun _ _ => rfl⟩
    rw [tablesAt_zero]
    exact (Nat.zero_add _).symm
  | succ n ih =>
    cases hfl : k.freelist with
    | nil =>
      simp only [buildImage, hfl, kalloc] at h
      obtain ⟨k₁, -, h₂⟩ := bind_eq_ok h
      cases h₂
    | cons page rest =>
      simp only [buildImage, hfl, kalloc] at h
      obtain ⟨⟨d₁, fl₁, mapped⟩, h₁, h₂⟩ := bind_eq_ok h
      dsimp only at h₂
      cases mapped with
      | false =>
        rw [if_neg (by decide)] at h₂
        obtain ⟨k₁, -, h₃⟩ := bind_eq_ok h₂
        obtain ⟨k₂, -, h₄⟩ := bind_eq_ok h₃
        cases h₄
      | true =>
        rw [if_pos rfl] at h₂
        obtain ⟨hd, hadds, hsuffix, hcount⟩ := mappages_adds h₁
        obtain ⟨⟨⟨fl, mem, rfl⟩, hsuffix', hcount', hmemory⟩, hpte⟩ := ih h₂
        dsimp only at hsuffix' hcount' hmemory
        refine ⟨⟨⟨fl, mem, rfl⟩, ?_, ?_, fun q hq => ?_⟩, fun x hx => ?_⟩
        · rw [hfl]
          exact (hsuffix'.trans hsuffix).trans (List.suffix_cons ..)
        · rw [hfl, tablesAt_succ, missing_union hadds, List.length_cons]
          dsimp only
          omega
        · rw [hfl, List.mem_cons, not_or] at hq
          show mem q = k.mem q
          rw [hmemory q fun hin => hq.2 (hsuffix.subset hin)]
          exact Function.update_of_ne hq.1 ..
        · rw [hpte x (by omega), hd, Function.update_of_ne (by omega)]

/-- The pages that the copy of an image of `sz` bytes takes. -/
def imageCost (sz : ℕ) : ℕ :=
  KVMPAGES + (imagePages sz + (tablesAt 0 (imagePages sz)).card)

theorem copyuvm_some {pgdir : PgDir} {sz : ℕ} (h : copyuvm pgdir sz k = .ok (k', some d)) :
    Built k k' (imageCost sz) ∧ ∀ x, imagePages sz ≤ x → d.pte x = none := by
  obtain ⟨⟨k₁, r⟩, h₁, h₂⟩ := bind_eq_ok h
  obtain ⟨⟨k₂, pages⟩, h₃, h₄⟩ := bind_eq_ok h₁
  obtain ⟨hle, rfl, rfl⟩ | ⟨-, rfl, mem, rfl⟩ := allocPages_ok h₃
  · cases h₄
    dsimp only at h₂
    split at h₂
    · have hkvm : Built k { k with freelist := k.freelist.drop KVMPAGES } KVMPAGES := by
        refine ⟨⟨_, _, rfl⟩, List.drop_suffix .., ?_, fun _ _ => rfl⟩
        rw [List.length_drop]
        omega
      obtain ⟨hbuilt, hpte⟩ := buildImage_some h₂
      have hall := hkvm.trans hbuilt
      rw [show missing _ (tablesAt 0 (imagePages sz)) = tablesAt 0 (imagePages sz) from
        Finset.filter_true_of_mem fun _ _ => rfl] at hall
      refine ⟨hall, fun x hx => ?_⟩
      rw [hpte x (by omega)]
    · cases h₂
  · cases h₄
    cases h₂

/-! ### Pages that can be freed again -/

/-- A directory takes the page that is mapped, and pages off the free list. -/
theorem mem_pages_mappages {va page : ℕ} {fl fl' : List ℕ} {d' : PgDir} {b : Bool}
    (h : mappages d va page fl = .ok (d', fl', b)) {x : ℕ} (hx : x ∈ d'.pages) :
    x ∈ d.pages ∨ x = page ∨ x ∈ fl := by
  obtain ⟨-, -, ⟨rfl, hm⟩ | ⟨-, rfl, -⟩⟩ := mappages_ok h
  · unfold PgDir.pages at hx ⊢
    rw [List.mem_append, List.mem_append, List.mem_filterMap, List.mem_filterMap] at hx ⊢
    rcases hx with (⟨y, hy, hpte⟩ | ⟨pdx, hpdx, htable⟩) | hkvm
    · rw [hm.pte] at hpte
      split at hpte
      · exact .inr (.inl (List.mem_singleton.mp (List.mem_of_getElem? hpte)))
      · exact .inl (.inl (.inl ⟨y, hy, hpte⟩))
    · obtain ⟨-, ht, -⟩ | ⟨-, ⟨-, hb⟩ | ⟨t, rfl, ht, -⟩⟩ := mappages_table h
      · rw [ht] at htable
        exact .inl (.inl (.inr ⟨pdx, hpdx, htable⟩))
      · cases hb
      · rw [ht, Function.update_apply] at htable
        split at htable
        · cases htable
          exact .inr (.inr List.mem_cons_self)
        · exact .inl (.inl (.inr ⟨pdx, hpdx, htable⟩))
    · rw [hm.kvm] at hkvm
      exact .inl (.inr hkvm)
  · exact .inl hx

/-- An image is built, or what has been built is freed again. -/
theorem buildImage_returns {contents : ℕ → Page} {va n : ℕ} (hpages : ∀ x ∈ d.pages, k.Freeable x)
    (hfree : ∀ x ∈ k.freelist, k.Freeable x) (hfresh : ∀ x, va ≤ x → d.pte x = none)
    (hend : va + n ≤ KERNBASE) : ∃ r, buildImage d contents va n k = .ok r := by
  induction n generalizing va d k with
  | zero => exact ⟨_, rfl⟩
  | succ n ih =>
    unfold buildImage
    cases hlist : k.freelist with
    | nil =>
      obtain ⟨k₁, h₁⟩ := kfreeAll_of_freeable hpages
      refine ⟨(k₁, none), ?_⟩
      show (freevm d k >>= _) = _
      rw [show freevm d k = .ok k₁ from h₁]
      rfl
    | cons page rest =>
      rw [hlist] at hfree
      obtain ⟨⟨d', fl, mapped⟩, hmap⟩ : ∃ r, mappages d va page rest = .ok r :=
        mappages_free (by omega) (hfresh va (le_refl _))
      have hpages' : ∀ x ∈ d'.pages, k.Freeable x := by
        intro x hx
        rcases mem_pages_mappages hmap hx with hx | rfl | hx
        · exact hpages x hx
        · exact hfree x List.mem_cons_self
        · exact hfree x (List.mem_cons_of_mem _ hx)
      show ∃ r, (mappages d va page rest >>= _) = .ok r
      rw [hmap, ok_bind]
      dsimp only
      cases mapped with
      | true =>
        obtain ⟨hd, -, hsuffix, -⟩ := mappages_adds hmap
        rw [if_pos rfl]
        refine ih hpages' (fun x hx => hfree x (List.mem_cons_of_mem _ (hsuffix.subset hx))) (fun x hx => ?_)
          (by omega)
        rw [hd, Function.update_of_ne (by omega)]
        exact hfresh x (by omega)
      | false =>
        rw [if_neg (by decide)]
        obtain ⟨k₁, h₁⟩ : ∃ k₁, kfree page { k with
            freelist := fl, mem := Function.update k.mem page (contents va) } = .ok k₁ :=
          kfree_of_freeable (hfree page List.mem_cons_self)
        obtain ⟨-, mem, rfl⟩ := kfree_ok h₁
        obtain ⟨k₂, h₂⟩ : ∃ k₂, freevm d' { k with freelist := page :: fl, mem := mem } = .ok k₂ :=
          kfreeAll_of_freeable hpages'
        refine ⟨(k₂, none), ?_⟩
        rw [h₁, ok_bind]
        show (freevm d' { k with freelist := page :: fl, mem := mem } >>= _) = _
        rw [h₂]
        rfl

/-- The copy of an image fails only where the image has a hole. -/
theorem copyuvm_error {pgdir : PgDir} {sz : ℕ} {e : Fault} (hfree : ∀ x ∈ k.freelist, k.Freeable x)
    (hsz : sz ≤ MMAPBASE * PGSIZE) (h : copyuvm pgdir sz k = .error e) : e = .copyuvm := by
  have halloc : ∀ e, allocPages KVMPAGES [] k ≠ .error e := by
    intro e herror
    obtain ⟨-, -, x, hx, hnot⟩ := allocPages_error herror
    exact hnot (hfree x hx)
  obtain h₁ | ⟨⟨k₁, r⟩, h₁, h₂⟩ := bind_eq_error h
  · obtain h₃ | ⟨⟨k₂, pages⟩, -, h₄⟩ := bind_eq_error h₁
    · exact absurd h₃ (halloc e)
    · cases pages with
      | none => cases h₄
      | some kvm => cases h₄
  · obtain ⟨⟨k₂, pages⟩, h₃, h₄⟩ := bind_eq_ok h₁
    obtain ⟨-, rfl, rfl⟩ | ⟨-, rfl, mem, rfl⟩ := allocPages_ok h₃
    · cases h₄
      dsimp only at h₂
      split at h₂
      · have hdrop : ∀ x ∈ k.freelist.drop KVMPAGES, k.Freeable x :=
          fun x hx => hfree x (List.mem_of_mem_drop hx)
        have hkvm : ∀ x ∈ (PgDir.mk ([] ++ k.freelist.take KVMPAGES) (fun _ => none) (fun _ => none)
            empty_backed).pages, k.Freeable x := by
          intro x hx
          unfold PgDir.pages at hx
          rw [List.filterMap_none, List.filterMap_none] at hx
          exact hfree x (List.mem_of_mem_take hx)
        have hend : 0 + imagePages sz ≤ KERNBASE := by
          have hle := imagePages_le hsz
          have hconst : MMAPBASE ≤ KERNBASE := by decide
          omega
        obtain ⟨r, hr⟩ := @buildImage_returns { k with freelist := k.freelist.drop KVMPAGES } _
          (fun va => k.mem ((pgdir.pte va).getD 0)) 0 (imagePages sz) hkvm hdrop (fun _ _ => rfl) hend
        have hbuilt := h₂.symm.trans hr
        cases hbuilt
      · exact (Except.error.inj h₂).symm
    · cases h₄
      cases h₂

/-! ### `fork` -/

/-- The child before its mappings are copied. -/
def Proc.forChild (p old : Proc) (c : Slot) (kstack pid : ℕ) (d : PgDir) : Proc :=
  { old with
    pid := pid
    kstack := kstack
    pgdir := d
    sz := p.sz
    parent := some c
    ofile := fun fd => (p.ofile fd).or (old.ofile fd)
    state := .RUNNABLE
    currentMappingIndex := 0
    mapEntries := fun i => if i < NMAP then .unused else old.mapEntries i }

/-- **`fork` comes to the copy of the mappings** in the state `k₀`. -/
structure Forked (c np : Slot) (pid : ℕ) (k k₀ : Kernel) : Prop where
  unused : (k.proc np).state = .UNUSED
  others : ∀ q, q ≠ np → k₀.proc q = k.proc q
  child : ∃ kstack d, k₀.proc np = (k.proc c).forChild (k.proc np) c kstack pid d ∧
    ∀ x, imagePages (k.proc c).sz ≤ x → d.pte x = none
  suffix : k₀.freelist <:+ k.freelist
  count : k.freelist.length = 1 + imageCost (k.proc c).sz + k₀.freelist.length
  memory : ∀ q, q ∉ k.freelist → k₀.mem q = k.mem q
  kernelEnd : k₀.kernelEnd = k.kernelEnd
  initproc : k₀.initproc = k.initproc

/-- The child can make calls. -/
theorem Forked.child_live {pid : ℕ} (hforked : Forked c np pid k k₀) (hall : Inherited c np k₀ done k') :
    (k'.proc np).Live := by
  obtain ⟨kstack, d, hchild, -⟩ := hforked.child
  obtain ⟨d', entries, hproc⟩ := hall.child
  have hstate : (k'.proc np).state = .RUNNABLE := by
    rw [hproc, hchild]
    rfl
  unfold Proc.Live
  rw [hstate]
  exact ⟨by decide, by decide⟩

/-- What no call changes. -/
def Fixed (k k' : Kernel) : Prop :=
  k'.initproc = k.initproc ∧ k'.kernelEnd = k.kernelEnd

theorem Fixed.trans {k₁ k₂ : Kernel} (h : Fixed k k₁) (h' : Fixed k₁ k₂) : Fixed k k₂ :=
  ⟨h'.1.trans h.1, h'.2.trans h.2⟩

theorem Fixed.freeable (h : Fixed k k') : k'.Freeable = k.Freeable := by
  unfold Kernel.Freeable
  rw [h.2]

/-- The state in which `fork` copies the image: the process in slot `np` has its number, and what is left of the
free list is `rest`. -/
def Kernel.numbered (k : Kernel) (np : Slot) (rest : List ℕ) : Kernel :=
  { k.modify np fun p => { p with pid := k.nextpid } with nextpid := k.nextpid + 1, freelist := rest }

/-- The child is in its slot. -/
def Kernel.withChild (k : Kernel) (c np : Slot) (kstack : ℕ) (d : PgDir) : Kernel :=
  (dupFiles c k).modify np fun p => { p with
    kstack := kstack
    pgdir := d
    sz := (k.proc c).sz
    parent := some c
    ofile := fun fd => ((k.proc c).ofile fd).or (p.ofile fd)
    state := .RUNNABLE
    currentMappingIndex := 0
    mapEntries := fun i => if i < NMAP then .unused else p.mapEntries i }

/-- **`fork` copies the image**, and goes on from there. -/
theorem fork_eq {kstack : ℕ} {rest : List ℕ} (hslot : firstSlot (fun p => (k.proc p).state = .UNUSED) = some np)
    (hlist : k.freelist = kstack :: rest) : fork c k =
      (copyuvm ((k.numbered np rest).proc c).pgdir ((k.numbered np rest).proc c).sz (k.numbered np rest) >>=
        fun r => r.2.elim (kfree kstack r.1 >>= fun k => .ok (k, none)) fun d =>
          copymemorymappings c np (r.1.withChild c np kstack d) >>= fun r => .ok (r.1, some (np, k.nextpid))) := by
  have hkalloc : kalloc (k.modify np fun p => { p with pid := k.nextpid }).freelist = some (kstack, rest) := by
    rw [show (k.modify np fun p => { p with pid := k.nextpid }).freelist = kstack :: rest from hlist]
    rfl
  unfold fork
  rw [hslot]
  dsimp only
  rw [hkalloc]
  show (copyuvm _ _ (k.numbered np rest) >>= _) = _
  refine congrArg _ (funext fun r => ?_)
  obtain ⟨k₁, d⟩ := r
  cases d with
  | none => rfl
  | some d => rfl

/-- Only the number in the slot is new. -/
theorem numbered_proc {n : ℕ} (hslot : firstSlot (fun p => (k.proc p).state = .UNUSED) = some np) {q : Slot}
    (hq : ((k.modify np fun p => { p with pid := n }).proc q).state ≠ .UNUSED) :
    (k.modify np fun p => { p with pid := n }).proc q = k.proc q := by
  by_cases hnp : q = np
  · rw [hnp, Kernel.modify_self] at hq
    exact absurd (of_decide_eq_true (firstSlot_some hslot)) hq
  · exact Kernel.modify_of_ne k hnp _

/-- Without a slot or a page for the kernel stack, `fork` returns `-1`. -/
theorem fork_returns_none (hnone : firstSlot (fun p => (k.proc p).state = .UNUSED) = none ∨ k.freelist = []) :
    ∃ k', fork c k = .ok (k', none) ∧ Fixed k k' ∧ ∀ q, (k'.proc q).state ≠ .UNUSED → k'.proc q = k.proc q := by
  unfold fork
  cases hslot : firstSlot (fun p => (k.proc p).state = .UNUSED) with
  | none => exact ⟨k, rfl, ⟨rfl, rfl⟩, fun _ _ => rfl⟩
  | some np =>
    have hnil := hnone.resolve_left (by rw [hslot]; exact Option.some_ne_none _)
    have hkalloc : kalloc (k.modify np fun p => { p with pid := k.nextpid }).freelist = none := by
      rw [show (k.modify np fun p => { p with pid := k.nextpid }).freelist = [] from hnil]
      rfl
    dsimp only
    rw [hkalloc]
    exact ⟨_, rfl, ⟨rfl, rfl⟩, fun q hq => numbered_proc hslot hq⟩

/-- The image has been copied, and the child is in its slot. -/
theorem forked_of_copyuvm {kstack : ℕ} {rest : List ℕ} (hunused : (k.proc np).state = .UNUSED) (hne : np ≠ c)
    (hlist : k.freelist = kstack :: rest)
    (hcopy : copyuvm ((k.numbered np rest).proc c).pgdir ((k.numbered np rest).proc c).sz (k.numbered np rest) =
      .ok (k', some d)) : Forked c np k.nextpid k (k'.withChild c np kstack d) := by
  have hother : ∀ q, q ≠ np → (k.numbered np rest).proc q = k.proc q :=
    fun q hq => Kernel.modify_of_ne k hq fun p => { p with pid := k.nextpid }
  have hslot : (k.numbered np rest).proc np = { k.proc np with pid := k.nextpid } :=
    Kernel.modify_self k np fun p => { p with pid := k.nextpid }
  have hparent := hother c hne.symm
  obtain ⟨⟨⟨fl, mem, rfl⟩, hsuffix, hcount, hmemory⟩, hnone⟩ := copyuvm_some hcopy
  dsimp only at hsuffix hcount hmemory
  rw [hparent] at hcount hnone
  refine ⟨hunused, fun q hq => ?_, ⟨kstack, d, ?_, hnone⟩, ?_, ?_, fun q hq => ?_, rfl, rfl⟩
  · exact (Kernel.modify_of_ne _ hq _).trans (hother q hq)
  · refine (Kernel.modify_self ..).trans ?_
    unfold dupFiles Proc.forChild
    dsimp only
    rw [hparent, hslot]
  · rw [hlist]
    exact hsuffix.trans (List.suffix_cons ..)
  · rw [hlist, List.length_cons, show rest.length = _ from hcount, Nat.add_comm, Nat.add_assoc]
    rfl
  · rw [hlist, List.mem_cons, not_or] at hq
    exact hmemory q hq.2

/-- **A `fork`** returns `-1`, fails where the image has a hole, or comes to the copy of the mappings. -/
theorem fork_cases (hlive : (k.proc c).state ≠ .UNUSED) (hsz : (k.proc c).sz ≤ MMAPBASE * PGSIZE) :
    (∃ k', fork c k = .ok (k', none) ∧ Fixed k k' ∧
        ∀ q, (k'.proc q).state ≠ .UNUSED → k'.proc q = k.proc q) ∨
      (∃ e, fork c k = .error e ∧ ((∀ x ∈ k.freelist, k.Freeable x) → e = .copyuvm)) ∨
      ∃ np k₀, Forked c np k.nextpid k k₀ ∧
        fork c k = (copymemorymappings c np k₀ >>= fun r => .ok (r.1, some (np, k.nextpid))) := by
  cases hslot : firstSlot (fun p => (k.proc p).state = .UNUSED) with
  | none => exact .inl (fork_returns_none (.inl hslot))
  | some np =>
    cases hlist : k.freelist with
    | nil => exact .inl (fork_returns_none (.inr hlist))
    | cons kstack rest =>
      have hunused : (k.proc np).state = .UNUSED := of_decide_eq_true (firstSlot_some hslot)
      have hne : np ≠ c := by
        rintro rfl
        exact hlive hunused
      have hparent : (k.numbered np rest).proc c = k.proc c :=
        Kernel.modify_of_ne k hne.symm fun p => { p with pid := k.nextpid }
      have hsz' : ((k.numbered np rest).proc c).sz ≤ MMAPBASE * PGSIZE := by
        rw [hparent]
        exact hsz
      have hfork := fork_eq (c := c) hslot hlist
      cases hcopy : copyuvm ((k.numbered np rest).proc c).pgdir ((k.numbered np rest).proc c).sz
          (k.numbered np rest) with
      | error e =>
        rw [hcopy] at hfork
        refine .inr (.inl ⟨e, hfork, fun hfree => ?_⟩)
        exact @copyuvm_error (k.numbered np rest) _ _ _ (fun x hx => hfree x (List.mem_cons_of_mem _ hx)) hsz' hcopy
      | ok r =>
        obtain ⟨k₁, d⟩ := r
        rw [hcopy, ok_bind] at hfork
        cases d with
        | none =>
          obtain ⟨fl, mem, rfl, -, -⟩ := copyuvm_ok hsz' hcopy
          cases hkfree : kfree kstack { k.numbered np rest with freelist := fl, mem := mem } with
          | error e =>
            refine .inr (.inl ⟨e, ?_, fun hfree => ?_⟩)
            · rw [hfork]
              show (kfree kstack _ >>= _) = _
              rw [hkfree]
              rfl
            · obtain ⟨k₂, hk₂⟩ : ∃ k₂, kfree kstack { k.numbered np rest with freelist := fl, mem := mem } =
                  .ok k₂ := kfree_of_freeable (hfree kstack List.mem_cons_self)
              rw [hkfree] at hk₂
              cases hk₂
          | ok k₂ =>
            obtain ⟨-, mem', hk₂⟩ := kfree_ok hkfree
            refine .inl ⟨k₂, ?_, ?_, ?_⟩
            · rw [hfork]
              show (kfree kstack _ >>= _) = _
              rw [hkfree]
              rfl
            · rw [hk₂]
              exact ⟨rfl, rfl⟩
            · rw [hk₂]
              exact fun q hq => numbered_proc hslot hq
        | some d => exact .inr (.inr ⟨np, _, forked_of_copyuvm hunused hne hlist hcopy, hfork⟩)

theorem fork_some {pid : ℕ} (hlive : (k.proc c).state ≠ .UNUSED) (hsz : (k.proc c).sz ≤ MMAPBASE * PGSIZE)
    (hrun : fork c k = .ok (k', some (np, pid))) :
    ∃ k₀ b, Forked c np pid k k₀ ∧ copymemorymappings c np k₀ = .ok (k', b) := by
  obtain ⟨k₁, h, -⟩ | ⟨e, h, -⟩ | ⟨np', k₀, hforked, h⟩ := fork_cases hlive hsz
  · rw [hrun] at h
    cases h
  · rw [hrun] at h
    cases h
  · rw [hrun] at h
    obtain ⟨⟨k₁, b⟩, hcopy, hend⟩ := bind_eq_ok h.symm
    cases hend
    exact ⟨k₀, b, hforked, hcopy⟩

/-- Without a child, no process that is there has changed. -/
theorem fork_none (hlive : (k.proc c).state ≠ .UNUSED) (hsz : (k.proc c).sz ≤ MMAPBASE * PGSIZE)
    (hrun : fork c k = .ok (k', none)) :
    Fixed k k' ∧ ∀ q, (k'.proc q).state ≠ .UNUSED → k'.proc q = k.proc q := by
  obtain ⟨k₁, h, hsame⟩ | ⟨e, h, -⟩ | ⟨np', k₀, -, h⟩ := fork_cases hlive hsz
  · rw [hrun] at h
    cases h
    exact hsame
  · rw [hrun] at h
    cases h
  · rw [hrun] at h
    obtain ⟨⟨k₁, b⟩, -, hend⟩ := bind_eq_ok h.symm
    cases hend

/-! ### The records of a process -/

/-- The valid entries of the array, in order, as far as the scanners look. -/
def records (p : Proc) : List MapEntry :=
  ((List.range (min (p.currentMappingIndex + 1) NMAP)).map p.mapEntries).filter MapEntry.inUse

theorem mem_records : m ∈ records p ↔ ∃ i < NMAP, IsRecord p i ∧ p.mapEntries i = m := by
  unfold records IsRecord
  rw [List.mem_filter, List.mem_map]
  constructor
  · rintro ⟨⟨i, hi, rfl⟩, huse⟩
    rw [List.mem_range, lt_min_iff, Nat.lt_succ_iff] at hi
    exact ⟨i, hi.2, ⟨hi.1, huse⟩, rfl⟩
  · rintro ⟨i, hi, ⟨hle, huse⟩, rfl⟩
    refine ⟨⟨i, ?_, rfl⟩, huse⟩
    rw [List.mem_range, lt_min_iff, Nat.lt_succ_iff]
    exact ⟨hle, hi⟩

theorem records_inUse (hm : m ∈ records p) : m.inUse = true :=
  (List.mem_filter.mp hm).2

/-- What `copymemorymappings` comes to. -/
theorem filter_scanned (hindex : ∀ i, IsRecord p i → i < NMAP) :
    (scanned p).filter MapEntry.inUse = records p := by
  unfold scanned records
  rcases le_total (p.currentMappingIndex + 1) NMAP with hle | hle
  · rw [min_eq_left hle]
  · have hnil : (((List.range (p.currentMappingIndex + 1 - NMAP)).map (NMAP + ·)).map p.mapEntries).filter
        MapEntry.inUse = [] := by
      refine List.filter_eq_nil_iff.mpr fun m hm huse => ?_
      obtain ⟨i, hi, rfl⟩ := List.mem_map.mp hm
      obtain ⟨j, hj, rfl⟩ := List.mem_map.mp hi
      rw [List.mem_range] at hj
      have hlt := hindex (NMAP + j) ⟨by omega, huse⟩
      omega
    rw [min_eq_right hle, ← Nat.add_sub_cancel' hle, List.range_add, List.map_append, List.filter_append, hnil,
      List.append_nil]

theorem length_records_le (p : Proc) : (records p).length ≤ NMAP := by
  refine (List.length_filter_le ..).trans ?_
  rw [List.length_map, List.length_range]
  exact min_le_right ..

theorem apart_records (h : ∀ i j x, IsRecord p i → IsRecord p j → (p.mapEntries i).Covers x →
    (p.mapEntries j).Covers x → i = j) : Apart (records p) := by
  unfold Apart records
  rw [List.filter_map, List.pairwise_map]
  refine (List.pairwise_lt_range.filter _).imp_of_mem fun {i j} hi hj hlt x hx hx' => ?_
  obtain ⟨hi, hui⟩ := List.mem_filter.mp hi
  obtain ⟨hj, huj⟩ := List.mem_filter.mp hj
  rw [List.mem_range, lt_min_iff, Nat.lt_succ_iff] at hi hj
  exact hlt.ne (h i j x ⟨hi.1, hui⟩ ⟨hj.1, huj⟩ hx hx')

/-! ### A `fork` with room for the copies -/

/-- The pages that `fork` takes: for the kernel stack, the image and the copies of the mappings. -/
def forkPages (p : Proc) : ℕ :=
  1 + imageCost p.sz + ((records p).map MapEntry.freshPages).sum + (tablesOf (records p)).card +
    (missing p.pgdir (windowsOf p (records p))).card

/-- **There is room for the copies of the mappings**, if the memory suffices for the image: it suffices for the
mappings too, and there is a window for each private one. -/
def ForkRoom (k : Kernel) (c : Slot) : Prop :=
  1 + imageCost (k.proc c).sz ≤ k.freelist.length →
    forkPages (k.proc c) ≤ k.freelist.length ∧ ∀ m ∈ records (k.proc c), m.HasWindow (k.proc c)

instance (p : Proc) (m : MapEntry) : Decidable (m.HasWindow p) := by
  unfold MapEntry.HasWindow
  infer_instance

instance (k : Kernel) (c : Slot) : Decidable (ForkRoom k c) := by
  unfold ForkRoom
  infer_instance

theorem tablesOf_card_le (d : PgDir) (ms : List MapEntry) :
    (missing d (tablesOf ms)).card ≤ (tablesOf ms).card :=
  Finset.card_le_card (Finset.filter_subset ..)

/-- **The free list is apart from what the processes map**: it has no page twice and none that a process maps,
and the image of `c` stays below the mappings. -/
structure FreeApart (c : Slot) (k : Kernel) : Prop where
  once : k.freelist.Nodup
  unmapped : ∀ x ∈ k.freelist, ∀ q, (k.proc q).state ≠ .UNUSED → ∀ va < KERNBASE,
    (k.proc q).pgdir.pte va ≠ some x
  below : (k.proc c).sz ≤ MMAPBASE * PGSIZE

/-- A page of the image has an owner. -/
theorem mem_own {q : Slot} {va x : ℕ} (huse : (k.proc q).state ≠ .UNUSED) (hlo : va < MMAPBASE)
    (hpte : (k.proc q).pgdir.pte va = some x) : x ∈ ∑ q, (k.proc q).own := by
  have hmem : x ∈ (k.proc q).own := by
    rw [own_of_live huse]
    refine Multiset.mem_add.mpr (.inr (Multiset.mem_add.mpr (.inl (Multiset.mem_add.mpr (.inl ?_)))))
    exact mem_holdings.mpr ⟨va, List.mem_range.mpr hlo, hpte⟩
  exact Multiset.mem_of_le (own_le q) hmem

/-- **So it is where every page has one owner.** -/
theorem Sound.freeApart {hand : Multiset ℕ} (h : Sound hand k) (hlive : (k.proc c).state ≠ .UNUSED) :
    FreeApart c k := by
  refine ⟨h.free_nodup, fun x hx q huse va hva hpte => ?_, (h.tidy c hlive).size⟩
  by_cases hlo : va < MMAPBASE
  · have hdisjoint := (Multiset.nodup_add.mp h.custody.nodup).2.2
    rw [Multiset.disjoint_left] at hdisjoint
    exact hdisjoint (Multiset.mem_add.mpr (.inr (Multiset.mem_coe.mpr hx))) (mem_own huse hlo hpte)
  · exact h.not_mapped (mem_kept_free hx) ⟨q, huse, mem_mapped_of_pte (not_lt.mp hlo) hva hpte⟩

/-- **The copy of the mappings is completed** for a parent whose mappings have their pages. -/
theorem Forked.copies {pid : ℕ} (hforked : Forked c np pid k k₀) (h : FreeApart c k) (hlive : (k.proc c).Live)
    (hparts : Mappings (k.proc c)) (hroom : ForkRoom k c) :
    ∃ k', copymemorymappings c np k₀ = .ok (k', true) ∧ Inherited c np k₀ (records (k.proc c)) k' ∧
      k.freelist.length ≤ forkPages (k.proc c) + k'.freelist.length := by
  obtain ⟨hpages, hwindows⟩ := hroom (by rw [hforked.count]; exact Nat.le_add_right ..)
  have hne : np ≠ c := by
    rintro rfl
    exact hlive.1 hforked.unused
  have hparent : k₀.proc c = k.proc c := hforked.others c hne.symm
  obtain ⟨kstack, d, hchild, hnone⟩ := hforked.child
  have hsz := imagePages_le h.below
  have hfilter := filter_scanned hparts.index
  have hms : ∀ m ∈ scanned (k.proc c), m.inUse = true → CanInherit c np k₀ m := by
    intro m hm huse
    have hin : m ∈ records (k.proc c) := by
      rw [← hfilter]
      exact List.mem_filter.mpr ⟨hm, huse⟩
    obtain ⟨i, -, hi, rfl⟩ := mem_records.mp hin
    have hlo := (inUse_iff.mp huse).2.1
    have hends := hparts.within i hi
    refine ⟨hends, fun x hx => ?_, fun x hx => ?_, ?_, fun q hq x hx => ?_⟩
    · rw [hchild]
      exact hnone x (hsz.trans (hlo.trans hx.1))
    · rw [hparent]
      exact hparts.present i hi x hx
    · rw [hparent]
      exact hwindows _ hin
    · rw [hparent]
      exact h.unmapped q (hforked.suffix.subset hq) c hlive.1 x (hx.2.trans_le hends)
  have hcount := hforked.count
  have hcost : 1 + imageCost (k.proc c).sz +
      copyPages (k₀.proc c) (k₀.proc np).pgdir (k₀.proc c).pgdir (records (k.proc c)) ≤
        forkPages (k.proc c) := by
    have hfew := tablesOf_card_le (k₀.proc np).pgdir (records (k.proc c))
    unfold forkPages copyPages
    rw [hparent]
    omega
  have hstart : Inherited c np k₀ [] k₀ := .start (by rw [hchild]; rfl)
  have hnodup := h.once.sublist hforked.suffix.sublist
  obtain ⟨k', hloop, hall, htaken⟩ := copyEntries_done hne hstart hms hnodup
    (by rw [hfilter]
        exact apart_records hparts.apart)
    (by rw [hfilter]
        exact length_records_le _)
    (by rw [hfilter]
        omega)
  rw [hfilter] at hall htaken
  refine ⟨k', ?_, hall, by omega⟩
  unfold copymemorymappings
  rw [hparent]
  exact hloop

/-- **The child inherits all mappings.** -/
theorem fork_inherits {pid : ℕ} (h : FreeApart c k) (hlive : (k.proc c).Live) (hparts : Mappings (k.proc c))
    (hroom : ForkRoom k c) (hrun : fork c k = .ok (k', some (np, pid))) :
    ∃ k₀, Forked c np pid k k₀ ∧ Inherited c np k₀ (records (k.proc c)) k' := by
  obtain ⟨k₀, b, hforked, hcopy⟩ := fork_some hlive.1 h.below hrun
  obtain ⟨k₁, hdone, hall, -⟩ := hforked.copies h hlive hparts hroom
  rw [hdone] at hcopy
  cases hcopy
  exact ⟨k₀, hforked, hall⟩

/-! ### The records of the child -/

/-- Where the records of a process are. -/
def places (p : Proc) : List ℕ :=
  (List.range (min (p.currentMappingIndex + 1) NMAP)).filter fun i => (p.mapEntries i).inUse

theorem records_eq_map (p : Proc) : records p = (places p).map p.mapEntries := by
  unfold records places
  rw [List.filter_map]
  rfl

theorem mem_places {i : ℕ} : i ∈ places p ↔ IsRecord p i ∧ i < NMAP := by
  unfold places IsRecord
  rw [List.mem_filter, List.mem_range, lt_min_iff, Nat.lt_succ_iff]
  tauto

theorem length_records_le_index (h : Accord p) : (records p).length ≤ p.currentMappingIndex := by
  have hsub : places p ⊆ List.range p.currentMappingIndex :=
    fun i hi => List.mem_range.mpr (h.lt (mem_places.mp hi).1)
  have hnodup : (places p).Nodup := List.nodup_range.filter _
  have hle := (hnodup.subperm hsub).length_le
  rw [List.length_range] at hle
  rwa [records_eq_map, List.length_map]

/-- **The records at the front of the array** are the same records. -/
theorem sameRecords_front (h : Accord p) (hindex : p'.currentMappingIndex = (records p).length)
    (hentries : ∀ i < NMAP, p'.mapEntries i = ((records p)[i]?).getD .unused) :
    SameRecords p p' fun i => ((places p)[i]?).getD 0 := by
  have hlen : (places p).length = (records p).length := by rw [records_eq_map, List.length_map]
  have hfew := (length_records_le_index h).trans_lt h.index
  have hfront : ∀ i, IsRecord p' i → i < (places p).length := by
    rintro i ⟨hle, hu⟩
    rw [hindex] at hle
    by_contra hnot
    rw [hentries i (by omega), List.getElem?_eq_none (by omega)] at hu
    cases hu
  have hplace : ∀ i (hi : i < (places p).length), ((places p)[i]?).getD 0 = (places p)[i] ∧
      p'.mapEntries i = p.mapEntries (places p)[i] := by
    intro i hi
    refine ⟨by rw [List.getElem?_eq_getElem hi]; rfl, ?_⟩
    rw [hentries i (by omega), records_eq_map, List.getElem?_map, List.getElem?_eq_getElem hi]
    rfl
  have hrecord : ∀ i (hi : i < (places p).length), IsRecord p (places p)[i] :=
    fun i hi => (mem_places.mp (List.getElem_mem hi)).1
  refine ⟨fun i hi => ?_, fun i hi => ?_, fun j hj => ?_, fun i j hi hj he => ?_⟩
  · have hlt := hfront i hi
    omega
  · obtain ⟨hget, he⟩ := hplace i (hfront i hi)
    rw [hget]
    exact ⟨hrecord i (hfront i hi), he⟩
  · obtain ⟨i, hi, hget⟩ := List.getElem_of_mem (mem_places.mpr ⟨hj, h.agree.index j hj⟩)
    obtain ⟨-, he⟩ := hplace i hi
    rw [hget] at he
    refine ⟨i, ⟨by omega, ?_⟩, he⟩
    rw [he]
    exact hj.2
  · obtain ⟨hget, -⟩ := hplace i (hfront i hi)
    obtain ⟨hget', -⟩ := hplace j (hfront j hj)
    rw [hget, hget'] at he
    exact (List.nodup_range.filter _).getElem_inj_iff.mp he

/-- What the child maps in the range of the mappings: the pages of its parent's mappings. -/
theorem Inherited.pte_iff {pid x : ℕ} (hforked : Forked c np pid k k₀) (hne : np ≠ c)
    (hall : Inherited c np k₀ (records (k.proc c)) k') (h : Settled (k.proc c))
    (hsize : (k.proc c).sz ≤ MMAPBASE * PGSIZE) (hlo : MMAPBASE ≤ x) :
    ((k'.proc np).pgdir.pte x).isSome ↔ ∃ i, IsRecord (k.proc c) i ∧ ((k.proc c).mapEntries i).Covers x := by
  have hparent : k₀.proc c = k.proc c := hforked.others c hne.symm
  by_cases hcovers : ∃ m ∈ records (k.proc c), m.Covers x
  · obtain ⟨m, hm, hx⟩ := hcovers
    obtain ⟨i, -, hi, rfl⟩ := mem_records.mp hm
    refine iff_of_true ?_ ⟨i, hi, hx⟩
    cases hprivate : has ((k.proc c).mapEntries i).flags MAP_PRIVATE with
    | true =>
      obtain ⟨pa, pb, -, hpb, -⟩ := hall.copied _ hm hprivate x hx
      rw [hpb]
      rfl
    | false =>
      obtain ⟨d, hd⟩ := h.records
      have hshared := (hd.kinds i hi).resolve_left (Bool.eq_false_iff.mp hprivate)
      rw [hall.shared _ hm hprivate hshared x hx, hparent]
      exact h.present i hi x hx
  · have hnot : ∀ m ∈ records (k.proc c), ¬m.Covers x := fun m hm hx => hcovers ⟨m, hm, hx⟩
    obtain ⟨kstack, d, hchild, hnone⟩ := hforked.child
    rw [hall.outside x hnot, hchild]
    show (d.pte x).isSome ↔ _
    rw [hnone x ((imagePages_le hsize).trans hlo)]
    refine iff_of_false Bool.false_ne_true ?_
    rintro ⟨i, hi, hx⟩
    exact hnot _ (mem_records.mpr ⟨i, h.mappings.index i hi, hi, rfl⟩) hx

/-- **Records and page table of the child agree**: it has no page without a record. -/
theorem Inherited.accord {pid : ℕ} (hforked : Forked c np pid k k₀) (hne : np ≠ c)
    (hall : Inherited c np k₀ (records (k.proc c)) k') (h : Settled (k.proc c))
    (hsize : (k.proc c).sz ≤ MMAPBASE * PGSIZE) : Accord (k'.proc np) := by
  obtain ⟨e, he⟩ := h.records
  obtain ⟨kstack, d, hchild, -⟩ := hforked.child
  have hentries : ∀ i < NMAP, (k'.proc np).mapEntries i = ((records (k.proc c))[i]?).getD .unused := by
    intro i hi
    rw [hall.entries, hchild]
    exact congrArg _ (if_pos hi)
  have hfew := (length_records_le_index he).trans_lt he.index
  refine he.transfer (sameRecords_front he hall.index hentries)
    (fun x hlo hhi => (hall.pte_iff hforked hne h hsize hlo).trans (he.agree.present x hlo hhi).symm)
    (hall.index ▸ hfew) fun i hi hle => ?_
  rw [hall.index] at hle
  rw [hentries i hi, List.getElem?_eq_none hle]
  rfl

/-! ### A process without an image -/

/-- **A process without an image comes to the copy of its mappings.** -/
theorem fork_start (hsz : (k.proc c).sz = 0) (hlive : (k.proc c).state ≠ .UNUSED)
    (hslot : firstSlot (fun p => (k.proc p).state = .UNUSED) = some np)
    (hcost : 1 + KVMPAGES ≤ k.freelist.length) :
    ∃ k₀, Forked c np k.nextpid k k₀ ∧
      fork c k = (copymemorymappings c np k₀ >>= fun r => .ok (r.1, some (np, k.nextpid))) := by
  have hunused : (k.proc np).state = .UNUSED := of_decide_eq_true (firstSlot_some hslot)
  have hne : np ≠ c := by
    rintro rfl
    exact hlive hunused
  obtain ⟨kstack, rest, hlist⟩ : ∃ kstack rest, k.freelist = kstack :: rest := by
    refine List.exists_cons_of_ne_nil ?_
    rintro hnil
    rw [hnil] at hcost
    cases hcost
  have hparent : (k.numbered np rest).proc c = k.proc c :=
    Kernel.modify_of_ne k hne.symm fun p => { p with pid := k.nextpid }
  have hroom : KVMPAGES ≤ (k.numbered np rest).freelist.length := by
    rw [hlist, List.length_cons] at hcost
    show KVMPAGES ≤ rest.length
    omega
  have hcopy : copyuvm ((k.numbered np rest).proc c).pgdir ((k.numbered np rest).proc c).sz
      (k.numbered np rest) = .ok ({ k.numbered np rest with
        freelist := (k.numbered np rest).freelist.drop KVMPAGES },
        some ⟨[] ++ (k.numbered np rest).freelist.take KVMPAGES, fun _ => none, fun _ => none, empty_backed⟩) := by
    rw [hparent, hsz]
    unfold copyuvm setupkvm
    rw [allocPages_of_le hroom, ok_bind]
    rfl
  refine ⟨_, forked_of_copyuvm hunused hne hlist hcopy, ?_⟩
  rw [fork_eq hslot hlist, hcopy]
  rfl

theorem fork_returns (h : FreeApart c k) (hlive : (k.proc c).Live) (hparts : Mappings (k.proc c))
    (hroom : ForkRoom k c) (hsz : (k.proc c).sz = 0)
    (hslot : firstSlot (fun p => (k.proc p).state = .UNUSED) = some np)
    (hcost : 1 + KVMPAGES ≤ k.freelist.length) :
    ∃ k₀ k', fork c k = .ok (k', some (np, k.nextpid)) ∧ Forked c np k.nextpid k k₀ ∧
      Inherited c np k₀ (records (k.proc c)) k' ∧
      k.freelist.length ≤ forkPages (k.proc c) + k'.freelist.length := by
  obtain ⟨k₀, hforked, hfork⟩ := fork_start hsz hlive.1 hslot hcost
  obtain ⟨k', hcopy, hall, htaken⟩ := hforked.copies h hlive hparts hroom
  refine ⟨k₀, k', ?_, hforked, hall, htaken⟩
  rw [hfork, hcopy]
  rfl

end OperatingSystems.Vm
