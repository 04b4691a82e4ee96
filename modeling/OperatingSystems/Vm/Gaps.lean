import Mathlib
import OperatingSystems.Vm.Steps

/-!
# Where `mmap` puts a mapping

Without `MAP_FIXED`, `sys_mmap` looks for the lowest run of free pages that is as long as the mapping,
and only then looks at the page for the guard.  A gap is a run of pages that are neither present nor the
guard page of a mapping.

* **`Gap`**, **`LowestGap`** — what there is to find; **`findfreevirtualaddress_iff`**: the search finds
  the lowest gap for the pages.
* **`mapPages_enough`** — how many free pages mapping a row of pages takes.
* **`mmap_lowest_iff`** — when `mmap` takes the lowest gap that also has room for the guard page.
-/

namespace OperatingSystems.Vm

open Outcomes

variable {k k' : Kernel} {c : Slot} {p : Proc} {a : MmapArgs} {ext : External} {va n : ℕ}

/-! ### Gaps -/

/-- The page is not present, and not the guard page of a mapping. -/
def FreeAt (p : Proc) (va : ℕ) : Prop :=
  isguardpage p va = false ∧ present p.pgdir va = false

/-- The `n` pages from `va` on are free and lie in the range of the mappings. -/
def Gap (p : Proc) (n va : ℕ) : Prop :=
  MMAPBASE ≤ va ∧ ∀ j < n, va + j < KERNBASE ∧ FreeAt p (va + j)

def LowestGap (p : Proc) (n va : ℕ) : Prop :=
  Gap p n va ∧ ∀ va' < va, ¬Gap p n va'

/-- `canallocatva` decides on gaps, as the kernel half is present. -/
theorem gap_iff (hn : 0 < n) : Gap p n va ↔
    MMAPBASE ≤ va ∧ va < KERNBASE ∧ canallocatva p va n = true := by
  constructor
  · rintro ⟨hlo, hfree⟩
    exact ⟨hlo, (hfree 0 hn).1, canallocatva_iff.mpr fun j hj => (hfree j hj).2⟩
  · rintro ⟨hlo, hhi, hfree⟩
    have hle := canallocatva_le hfree hhi.le
    exact ⟨hlo, fun j hj => ⟨by omega, canallocatva_iff.mp hfree j hj⟩⟩

/-- A gap and a free page behind it. -/
theorem gap_succ_iff (hn : 0 < n) : Gap p (n + 1) va ↔ Gap p n va ∧ FreeAt p (va + n) := by
  constructor
  · rintro ⟨hlo, hfree⟩
    exact ⟨⟨hlo, fun j hj => hfree j (by omega)⟩, (hfree n (Nat.lt_succ_self n)).2⟩
  · rintro ⟨hgap, hnext⟩
    obtain ⟨hlo, hhi, hfree⟩ := (gap_iff hn).mp hgap
    refine (gap_iff (Nat.succ_pos n)).mpr ⟨hlo, hhi, canallocatva_iff.mpr fun j hj => ?_⟩
    rcases Nat.lt_succ_iff_lt_or_eq.mp hj with hj | rfl
    · exact canallocatva_iff.mp hfree j hj
    · exact hnext

theorem findfreevirtualaddress_none (hn : 0 < n) :
    findfreevirtualaddress p n = none ↔ ∀ va, ¬Gap p n va := by
  rw [findfreevirtualaddress, Option.map_eq_none_iff, List.find?_range_eq_none]
  constructor
  · intro h va hgap
    obtain ⟨hlo, hhi, hfree⟩ := (gap_iff hn).mp hgap
    have hnot := h (va - MMAPBASE) (by omega)
    rw [Nat.add_sub_cancel' hlo, hfree] at hnot
    cases hnot
  · intro h i hi
    rw [Bool.not_eq_true', Bool.eq_false_iff]
    exact fun hfree => h (MMAPBASE + i) ((gap_iff hn).mpr ⟨Nat.le_add_right .., by omega, hfree⟩)

/-- **The search finds the lowest gap.** -/
theorem findfreevirtualaddress_iff (hn : 0 < n) :
    findfreevirtualaddress p n = some va ↔ LowestGap p n va := by
  constructor
  · intro h
    obtain ⟨hlo, hhi, hfree⟩ := findfreevirtualaddress_some h
    refine ⟨(gap_iff hn).mpr ⟨hlo, hhi, hfree⟩, fun va' hlt hgap => ?_⟩
    obtain ⟨hlo', -, hfree'⟩ := (gap_iff hn).mp hgap
    obtain ⟨i, hi, rfl⟩ := Option.map_eq_some_iff.mp h
    have hnot := (List.find?_range_eq_some.mp hi).2.2 (va' - MMAPBASE) (by omega)
    rw [Nat.add_sub_cancel' hlo', hfree'] at hnot
    cases hnot
  · rintro ⟨hgap, hlowest⟩
    cases hfind : findfreevirtualaddress p n with
    | none => exact absurd hgap ((findfreevirtualaddress_none hn).mp hfind va)
    | some va₁ =>
      -- two lowest gaps are the same
      have hgap₁ := (gap_iff hn).mpr (findfreevirtualaddress_some hfind)
      obtain ⟨i, hi, rfl⟩ := Option.map_eq_some_iff.mp hfind
      obtain ⟨hlo, hhi, hfree⟩ := (gap_iff hn).mp hgap
      rcases lt_trichotomy (MMAPBASE + i) va with hlt | rfl | hlt
      · exact absurd hgap₁ (hlowest _ hlt)
      · rfl
      · have hnot := (List.find?_range_eq_some.mp hi).2.2 (va - MMAPBASE) (by omega)
        rw [Nat.add_sub_cancel' hlo, hfree] at hnot
        cases hnot

/-! ### How much memory a mapping takes -/

/-- The page tables that the `n` pages from `va` on need and that are not there. -/
def missingTables (table : ℕ → Option ℕ) (va n : ℕ) : Finset ℕ :=
  ((Finset.range n).image fun j => (va + j) / 1024).filter fun pdx => table pdx = none

theorem mem_missingTables {table : ℕ → Option ℕ} {pdx : ℕ} :
    pdx ∈ missingTables table va n ↔ (∃ j < n, (va + j) / 1024 = pdx) ∧ table pdx = none := by
  rw [missingTables, Finset.mem_filter, Finset.mem_image]
  simp only [Finset.mem_range]

theorem missingTables_of_some {table : ℕ → Option ℕ} (h : (table (va / 1024)).isSome) :
    missingTables table (va + 1) n = missingTables table va (n + 1) := by
  ext pdx
  rw [mem_missingTables, mem_missingTables]
  constructor
  · rintro ⟨⟨j, hj, hpdx⟩, hnone⟩
    exact ⟨⟨j + 1, by omega, by rw [← hpdx]; congr 1; omega⟩, hnone⟩
  · rintro ⟨⟨j, hj, hpdx⟩, hnone⟩
    cases j with
    | zero =>
      rw [← hpdx] at hnone
      rw [Nat.add_zero] at hnone
      rw [hnone] at h
      cases h
    | succ j => exact ⟨⟨j, by omega, by rw [← hpdx]; congr 1; omega⟩, hnone⟩

theorem missingTables_of_none {table : ℕ → Option ℕ} (h : table (va / 1024) = none) (t : ℕ) :
    (missingTables (Function.update table (va / 1024) (some t)) (va + 1) n).card + 1 =
      (missingTables table va (n + 1)).card := by
  have hmem : va / 1024 ∈ missingTables table va (n + 1) :=
    mem_missingTables.mpr ⟨⟨0, Nat.succ_pos n, by rw [Nat.add_zero]⟩, h⟩
  have herase : missingTables (Function.update table (va / 1024) (some t)) (va + 1) n =
      (missingTables table va (n + 1)).erase (va / 1024) := by
    ext pdx
    rw [mem_missingTables, Finset.mem_erase, mem_missingTables]
    by_cases hpdx : pdx = va / 1024
    · rw [hpdx, Function.update_self]
      simp
    · rw [Function.update_of_ne hpdx]
      constructor
      · rintro ⟨⟨j, hj, hj'⟩, hnone⟩
        exact ⟨hpdx, ⟨j + 1, by omega, by rw [← hj']; congr 1; omega⟩, hnone⟩
      · rintro ⟨-, ⟨j, hj, hj'⟩, hnone⟩
        cases j with
        | zero => exact absurd hj'.symm hpdx
        | succ j => exact ⟨⟨j, by omega, by rw [← hj']; congr 1; omega⟩, hnone⟩
  rw [herase, Finset.card_erase_add_one hmem]

/-- What `mappages` does to the page tables. -/
theorem mappages_table {d d' : PgDir} {pa : ℕ} {fl fl' : List ℕ} {b : Bool}
    (h : mappages d va pa fl = .ok (d', fl', b)) :
    ((d.table (va / 1024)).isSome ∧ d'.table = d.table ∧ fl' = fl ∧ b = true) ∨
      d.table (va / 1024) = none ∧ (fl = [] ∧ b = false ∨
        ∃ t, fl = t :: fl' ∧ d'.table = Function.update d.table (va / 1024) (some t) ∧ b = true) := by
  unfold mappages at h
  split at h
  · cases h
  · split at h
    · rename_i ht
      split at h
      · cases h
      · cases h
        exact .inl ⟨ht, rfl, rfl, rfl⟩
    · rename_i ht
      rw [Bool.not_eq_true, Option.isSome_eq_false_iff, Option.isNone_iff_eq_none] at ht
      cases fl with
      | nil =>
        cases h
        exact .inr ⟨ht, .inl ⟨rfl, rfl⟩⟩
      | cons t rest =>
        cases h
        exact .inr ⟨ht, .inr ⟨t, rfl, rfl, rfl⟩⟩

/-- **Enough free pages for the missing page tables** are enough for mapping the row. -/
theorem mapPages_enough {d d' : PgDir} {ps fl fl' : List ℕ} {b : Bool}
    (hrun : mapPages d va ps fl = .ok (d', fl', b))
    (henough : (missingTables d.table va ps.length).card ≤ fl.length) : b = true := by
  induction ps generalizing d va fl with
  | nil =>
    cases hrun
    rfl
  | cons pa ps ih =>
    obtain ⟨⟨d₁, fl₁, b₁⟩, h₁, h₂⟩ := bind_eq_ok hrun
    dsimp only at h₂
    rw [List.length_cons] at henough
    rcases mappages_table h₁ with ⟨hsome, htable, rfl, rfl⟩ | ⟨hnone, ⟨rfl, -⟩ | ⟨t, rfl, htable, rfl⟩⟩
    · refine ih h₂ ?_
      rwa [htable, missingTables_of_some hsome]
    · have := missingTables_of_none (n := ps.length) hnone 0
      rw [List.length_nil] at henough
      omega
    · refine ih h₂ ?_
      have := missingTables_of_none (n := ps.length) hnone t
      rw [List.length_cons] at henough
      rw [htable]
      omega

/-! ### What `mmap` should do -/

/-- The page for the guard. -/
def MmapArgs.guards (a : MmapArgs) : ℕ :=
  if has a.flags MAP_GROWSUP then 1 else 0

/-- `n` different pages of the free list are mapped from `va` on, and no other page of the user half is
touched. -/
def MapsFresh (k k' : Kernel) (c : Slot) (va n : ℕ) : Prop :=
  ∃ ps : List ℕ, ps.length = n ∧ ps.Nodup ∧ (∀ p ∈ ps, p ∈ k.freelist ∧ p ∉ k'.freelist) ∧
    ∀ x < KERNBASE, (k'.proc c).pgdir.pte x =
      if va ≤ x ∧ x < va + n then ps[x - va]? else (k.proc c).pgdir.pte x

/-- **`mmap` takes the lowest gap** for the mapping and its guard page, and fails if there is none. -/
def TakesLowest (c : Slot) (a : MmapArgs) (ext : External) (k : Kernel) : Prop :=
  (∀ va, LowestGap (k.proc c) (a.pages + a.guards) va →
    ∃ k', sys_mmap c a ext k = .ok (k', some va) ∧ MapsFresh k k' c va a.pages) ∧
  ((∀ va, ¬Gap (k.proc c) (a.pages + a.guards) va) → ∃ k', sys_mmap c a ext k = .ok (k', none))

/-- A call with `MAP_ANONYMOUS` and without `MAP_FIXED`, with valid arguments and a positive length. -/
structure MmapArgs.Floating (a : MmapArgs) : Prop where
  valid : a.valid = true
  anonymous : has a.flags MAP_ANONYMOUS = true
  floating : has a.flags MAP_FIXED = false
  length : 0 < a.length

/-- There are pages for the mapping, and for the page tables where it should be put. -/
def EnoughMemory (k : Kernel) (c : Slot) (a : MmapArgs) : Prop :=
  a.pages ≤ k.freelist.length ∧ ∀ va, LowestGap (k.proc c) (a.pages + a.guards) va →
    a.pages + (missingTables (k.proc c).pgdir.table va a.pages).card ≤ k.freelist.length

theorem MmapArgs.Floating.pages_pos (h : a.Floating) : 0 ≤ pagesOf a.length ∧ 0 < a.pages := by
  have hpos := h.length
  have hdiv := Int.mul_tdiv_add_tmod a.length PGSIZE
  have hsize : (PGSIZE : ℤ) = 4096 := rfl
  have hquot : 0 ≤ Int.tdiv a.length PGSIZE := Int.tdiv_nonneg hpos.le (by decide)
  have hpages : 0 < pagesOf a.length := by
    rw [pagesOf]
    split
    · omega
    · rename_i hrem
      rw [not_not] at hrem
      rw [hrem] at hdiv
      rw [hsize] at hdiv ⊢
      omega
  refine ⟨hpages.le, ?_⟩
  rw [MmapArgs.pages]
  omega

theorem MmapArgs.Floating.place (h : a.Floating) (p : Proc) :
    placeMapping p a n = findfreevirtualaddress p n := by
  rw [placeMapping, if_neg (by rw [h.floating]; decide)]

theorem guardOk_iff : guardOk p a va n = true ↔
    (has a.flags MAP_GROWSUP = true → FreeAt p (va + n)) := by
  unfold guardOk FreeAt
  cases has a.flags MAP_GROWSUP with
  | false => simp
  | true =>
    rw [Bool.not_true, Bool.false_or, canallocatva_iff]
    constructor
    · exact fun h _ => h 0 (by decide)
    · intro h j hj
      rw [show j = 0 by omega]
      exact h rfl

/-- The mapping is placed where its gap has room for the guard page. -/
theorem placed_iff (h : a.Floating) (hroom : a.pages ≤ k.freelist.length) :
    Placed k c a va ↔ LowestGap (k.proc c) a.pages va ∧ Gap (k.proc c) (a.pages + a.guards) va := by
  obtain ⟨hnonneg, hpos⟩ := h.pages_pos
  have hguard : Gap (k.proc c) a.pages va → (Gap (k.proc c) (a.pages + a.guards) va ↔
      guardOk (k.proc c) a va a.pages = true) := by
    intro hgap
    rw [guardOk_iff, MmapArgs.guards]
    cases has a.flags MAP_GROWSUP with
    | false => simpa using hgap
    | true =>
      rw [if_pos rfl, gap_succ_iff hpos, and_iff_right hgap]
      simp
  constructor
  · intro hplaced
    have hplace := hplaced.place
    rw [h.place, findfreevirtualaddress_iff hpos] at hplace
    exact ⟨hplace, (hguard hplace.1).mpr hplaced.guard⟩
  · rintro ⟨hlowest, hgap⟩
    refine ⟨h.valid, hnonneg, hroom, ?_, (hguard hlowest.1).mp hgap⟩
    rw [h.place, findfreevirtualaddress_iff hpos]
    exact hlowest

/-! ### What `mmap` does -/

theorem mmap_no_fault (h : a.Floating) (hroom : a.pages ≤ k.freelist.length)
    (hindex : (k.proc c).currentMappingIndex < NMAP) {e : Fault} : sys_mmap c a ext k ≠ .error e := by
  intro hr
  obtain ⟨-, hn⟩ | ⟨-, hlt, -⟩ | ⟨hanon, -⟩ | ⟨-, hle⟩ := sys_mmap_error hr
  · exact absurd h.pages_pos.1 (not_le.mpr hn)
  · exact absurd hroom (not_le.mpr hlt)
  · rw [h.anonymous] at hanon
    cases hanon
  · exact absurd hindex (not_lt.mpr hle)

theorem mmap_fails (h : a.Floating) (hroom : a.pages ≤ k.freelist.length)
    (hindex : (k.proc c).currentMappingIndex < NMAP) (hnot : ∀ va, ¬Placed k c a va) :
    ∃ k', sys_mmap c a ext k = .ok (k', none) := by
  cases hr : sys_mmap c a ext k with
  | error e => exact absurd hr (mmap_no_fault h hroom hindex)
  | ok r =>
    obtain ⟨k', r⟩ := r
    cases r with
    | none => exact ⟨k', rfl⟩
    | some va => exact absurd (sys_mmap_some hr).1 (hnot va)

/-- Where the mapping is placed and the memory suffices, `mmap` returns its address. -/
theorem mmap_returns (ext : External) (h : a.Floating) (hplaced : Placed k c a va)
    (hindex : (k.proc c).currentMappingIndex < NMAP)
    (henough : a.pages + (missingTables (k.proc c).pgdir.table va a.pages).card ≤ k.freelist.length) :
    ∃ k', sys_mmap c a ext k = .ok (k', some va) := by
  obtain ⟨hlo, hhi, hfree⟩ := placeMapping_some hplaced.place
  have hlen := hplaced.length_got
  obtain ⟨⟨d, fl, b⟩, hmap⟩ : ∃ r, mapPages (k.proc c).pgdir va (a.got k) (k.freelist.drop a.pages) =
      .ok r := by
    apply mapPages_free
    · rw [hlen]
      exact canallocatva_le hfree hhi.le
    · rw [hlen]
      exact fun x hx hlt => canallocatva_pte hfree hhi.le hx hlt
  have hb : b = true := by
    apply mapPages_enough hmap
    rw [hlen, List.length_drop]
    omega
  subst hb
  have halloc := @allocPages_of_le k _ [] hplaced.room
  rw [List.nil_append] at halloc
  have hread : ∀ k₁, readMapping c a va a.pages ext k₁ = .ok (k₁, true) := fun k₁ => by
    rw [readMapping, if_pos h.anonymous]
  unfold sys_mmap
  rw [if_neg (by rw [h.valid]; decide), if_neg (not_lt.mpr h.pages_pos.1)]
  show ∃ k', (allocPages a.pages [] k >>= _) = .ok (k', some va)
  rw [halloc, ok_bind]
  dsimp only
  rw [show (pagesOf a.length).toNat = a.pages from rfl, hplaced.place]
  dsimp only
  rw [if_neg (by rw [hplaced.guard]; decide)]
  show ∃ k', (mapPages (k.proc c).pgdir va (a.got k) (k.freelist.drop a.pages) >>= _) =
    .ok (k', some va)
  rw [hmap, ok_bind]
  dsimp only
  rw [if_neg (by decide), hread, ok_bind]
  dsimp only
  rw [if_neg (by decide), Kernel.modify_self, setEntry, if_pos hindex]
  exact ⟨_, rfl⟩

/-- **The pages of a mapping** are those that were at the front of the free list. -/
theorem mmap_fresh (hnodup : k.freelist.Nodup) (hrun : sys_mmap c a ext k = .ok (k', some va)) :
    MapsFresh k k' c va a.pages := by
  obtain ⟨hplaced, -, d, fl, mem, file, hmapped, -, -, rfl⟩ := sys_mmap_some hrun
  refine ⟨a.got k, hplaced.length_got, hnodup.sublist (List.take_sublist ..), ?_, ?_⟩
  · intro p hp
    refine ⟨List.mem_of_mem_take hp, fun hfl => ?_⟩
    have hsuffix : p ∈ k.freelist.drop a.pages := hmapped.suffix.subset hfl
    exact List.disjoint_take_drop hnodup (le_refl a.pages) hp hsuffix
  · intro x _
    rw [Kernel.modify_self]
    show d.pte x = _
    rw [hmapped.pte, hplaced.length_got]

/-! ### When the lowest gap is taken -/

theorem LowestGap.le (h : LowestGap p n va) {va' : ℕ} (hgap : Gap p n va') : va ≤ va' :=
  not_lt.mp fun hlt => h.2 va' hlt hgap

theorem exists_lowest (hn : 0 < n) (h : Gap p n va) : ∃ va', LowestGap p n va' := by
  cases hfind : findfreevirtualaddress p n with
  | none => exact absurd h ((findfreevirtualaddress_none hn).mp hfind va)
  | some va' => exact ⟨va', (findfreevirtualaddress_iff hn).mp hfind⟩

theorem Gap.of_le {m : ℕ} (h : Gap p n va) (hm : m ≤ n) : Gap p m va :=
  ⟨h.1, fun j hj => h.2 j (by omega)⟩

/-- **When `mmap` takes the lowest gap**: without a guard page always; with one, if the page behind the
lowest run of free pages is free, or no gap has room for the guard page. -/
theorem mmap_lowest_iff (c : Slot) (a : MmapArgs) (ext : External) (k : Kernel) (h : a.Floating)
    (hindex : (k.proc c).currentMappingIndex < 99) (hnodup : k.freelist.Nodup)
    (henough : EnoughMemory k c a) :
    TakesLowest c a ext k ↔
      (has a.flags MAP_GROWSUP = true → (∃ va, Gap (k.proc c) (a.pages + 1) va) →
        ∀ va, LowestGap (k.proc c) a.pages va → FreeAt (k.proc c) (va + a.pages)) := by
  have hlt : (k.proc c).currentMappingIndex < NMAP := hindex.trans (by decide)
  obtain ⟨-, hpos⟩ := h.pages_pos
  constructor
  · rintro ⟨htakes, -⟩ hgrows ⟨va₀, hgap₀⟩ va hlowest
    have hguards : a.guards = 1 := by rw [MmapArgs.guards, if_pos hgrows]
    rw [hguards] at htakes
    obtain ⟨va₁, hlowest₁⟩ := exists_lowest (Nat.succ_pos a.pages) hgap₀
    obtain ⟨k', hrun, -⟩ := htakes va₁ hlowest₁
    have hplaced := (placed_iff h henough.1).mp (sys_mmap_some hrun).1
    have heq : va = va₁ := le_antisymm (hlowest.le hplaced.1.1) (hplaced.1.le hlowest.1)
    rw [heq]
    exact ((gap_succ_iff hpos).mp hlowest₁.1).2
  · intro hcond
    constructor
    · intro va hlowest
      have hgap : Gap (k.proc c) a.pages va := hlowest.1.of_le (Nat.le_add_right ..)
      have hfirst : LowestGap (k.proc c) a.pages va := by
        obtain ⟨va₁, hlowest₁⟩ := exists_lowest hpos hgap
        have hgap₁ : Gap (k.proc c) (a.pages + a.guards) va₁ := by
          have hlarge := hlowest.1
          rw [MmapArgs.guards] at hlarge ⊢
          split at hlarge
          · rename_i hgrows
            rw [if_pos hgrows]
            exact (gap_succ_iff hpos).mpr ⟨hlowest₁.1, hcond hgrows ⟨va, hlarge⟩ va₁ hlowest₁⟩
          · rename_i hgrows
            rw [if_neg hgrows]
            exact hlowest₁.1
        rw [le_antisymm (hlowest.le hgap₁) (hlowest₁.le hgap)]
        exact hlowest₁
      have hplaced := (placed_iff h henough.1).mpr ⟨hfirst, hlowest.1⟩
      obtain ⟨k', hrun⟩ := mmap_returns ext h hplaced hlt (henough.2 va hlowest)
      exact ⟨k', hrun, mmap_fresh hnodup hrun⟩
    · intro hnone
      apply mmap_fails h henough.1 hlt
      intro va hplaced
      exact hnone va ((placed_iff h henough.1).mp hplaced).2

/-- A kernel with one free page and all page tables, where the process has no records. -/
def tabled (pte : ℕ → Option ℕ) : Kernel where
  freelist := [500]
  mem := fun _ _ => 0
  proc := fun _ =>
    { sz := 0
      pgdir := ⟨[], fun _ => some 300, pte, fun _ _ _ => rfl⟩
      kstack := 0
      state := .RUNNING
      pid := 1
      parent := none
      ofile := fun _ => none
      mapEntries := fun _ => .unused
      currentMappingIndex := 0 }
  file := fun _ => ⟨.FD_NONE, 0, false, false, 0, 0⟩
  inode := fun _ => ⟨false, 0, fun _ => 0⟩
  nextpid := 2
  initproc := 0
  kernelEnd := 256

/-- A private anonymous page, with further flags. -/
def anyPage (flags : BitVec 32) : MmapArgs where
  virtualAddress := 0
  length := 4096
  prot := 3
  flags := MAP_PRIVATE ||| MAP_ANONYMOUS ||| flags
  fd := -1
  offset := 0

theorem tabled_free {pte : ℕ → Option ℕ} {x : ℕ} (hx : x < KERNBASE) :
    FreeAt ((tabled pte).proc 0) x ↔ pte x = none := by
  have hguard : isguardpage ((tabled pte).proc 0) x = false := by
    rw [Bool.eq_false_iff]
    intro h
    obtain ⟨i, -, hu, -⟩ := isguardpage_iff.mp h
    cases hu
  rw [FreeAt, and_iff_right hguard, present_of_lt hx]
  show (pte x).isSome = false ↔ pte x = none
  rw [Option.isSome_eq_false_iff, Option.isNone_iff_eq_none]

theorem tabled_enough (pte : ℕ → Option ℕ) {a : MmapArgs} (ha : a.pages = 1) :
    EnoughMemory (tabled pte) 0 a := by
  have hmissing : ∀ va, missingTables (fun _ => some 300) va a.pages = ∅ := fun va => by
    ext pdx
    simp [mem_missingTables]
  refine ⟨by rw [ha]; exact le_refl 1, fun va _ => ?_⟩
  show a.pages + (missingTables (fun _ => some 300) va a.pages).card ≤ 1
  rw [hmissing, ha, Finset.card_empty]

/-- The first page of the range is taken: a mapping that grows up goes to the second one. -/
theorem mmap_lowest_behind :
    TakesLowest 0 (anyPage MAP_GROWSUP) ⟨none, false⟩
      (tabled fun x => if x = MMAPBASE then some 501 else none) := by
  set pte : ℕ → Option ℕ := fun x => if x = MMAPBASE then some 501 else none with hpte
  have hpages : (anyPage MAP_GROWSUP).pages = 1 := by decide
  have hfree : ∀ x < KERNBASE, x ≠ MMAPBASE → FreeAt ((tabled pte).proc 0) x :=
    fun x hx hne => (tabled_free hx).mpr (if_neg hne)
  have hbase : MMAPBASE + 3 < KERNBASE := by decide
  refine (mmap_lowest_iff 0 (anyPage MAP_GROWSUP) ⟨none, false⟩ (tabled pte)
    ⟨by decide, by decide, by decide, by decide⟩ (by decide) (by decide)
    (tabled_enough _ hpages)).mpr fun _ _ va hlowest => ?_
  rw [hpages] at hlowest ⊢
  have hgap : Gap ((tabled pte).proc 0) 1 (MMAPBASE + 1) :=
    ⟨Nat.le_add_right .., fun j hj => ⟨by omega, hfree _ (by omega) (by omega)⟩⟩
  have hle := hlowest.le hgap
  have hlo := hlowest.1.1
  exact hfree _ (by omega) (by omega)

/-- The page behind the lowest free one is taken: `mmap` gives up, with the whole range above it free. -/
theorem mmap_gives_up : ¬∀ (c : Slot) (a : MmapArgs) (ext : External) (k : Kernel), a.Floating →
    (k.proc c).currentMappingIndex < 99 → k.freelist.Nodup → EnoughMemory k c a →
      TakesLowest c a ext k := by
  intro h
  set pte : ℕ → Option ℕ := fun x => if x = MMAPBASE + 1 then some 501 else none with hpte
  have hfloating : (anyPage MAP_GROWSUP).Floating := ⟨by decide, by decide, by decide, by decide⟩
  have hpages : (anyPage MAP_GROWSUP).pages = 1 := by decide
  have hguards : (anyPage MAP_GROWSUP).guards = 1 := by decide
  have hfree : ∀ x < KERNBASE, x ≠ MMAPBASE + 1 → FreeAt ((tabled pte).proc 0) x :=
    fun x hx hne => (tabled_free hx).mpr (if_neg hne)
  have htaken : ¬FreeAt ((tabled pte).proc 0) (MMAPBASE + 1) := fun hfree => by
    have := (tabled_free (by decide)).mp hfree
    rw [hpte] at this
    simp at this
  have hbase : MMAPBASE + 3 < KERNBASE := by decide
  have hlowest : LowestGap ((tabled pte).proc 0) 2 (MMAPBASE + 2) := by
    refine ⟨⟨Nat.le_add_right .., fun j hj => ⟨by omega, hfree _ (by omega) (by omega)⟩⟩, ?_⟩
    rintro va hlt ⟨hlo, hgap⟩
    rcases show va = MMAPBASE ∨ va = MMAPBASE + 1 by omega with rfl | rfl
    · exact htaken (hgap 1 (by decide)).2
    · exact htaken (hgap 0 (by decide)).2
  have htakes := (h 0 (anyPage MAP_GROWSUP) ⟨none, false⟩ (tabled pte) hfloating (by decide) (by decide)
    (tabled_enough _ hpages)).1 (MMAPBASE + 2)
  rw [hpages, hguards] at htakes
  obtain ⟨k', hrun, -⟩ := htakes hlowest
  have hplaced := (placed_iff hfloating (by rw [hpages]; exact le_refl 1)).mp (sys_mmap_some hrun).1
  rw [hpages] at hplaced
  refine hplaced.1.2 MMAPBASE (by omega) ⟨le_refl _, fun j hj => ⟨by omega, ?_⟩⟩
  exact hfree _ (by omega) (by omega)

end OperatingSystems.Vm
