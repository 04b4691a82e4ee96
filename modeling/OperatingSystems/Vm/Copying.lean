import Mathlib
import OperatingSystems.Vm.Growth

/-!
# A copy of the mappings that is completed

The loops of `copymemorymappings`, as they run when the memory suffices: each page of a private mapping gets a
page off the free list with the same bytes, each page of a shared one is mapped as it is, and the parent's page
table is as before, but for page tables that the window has needed.

* **`tablesAt`**, **`missing_union`** — which page tables are needed, and how many of them are missing.
* **`copyPage_present`** — one page through the window.
* **`copyPrivate_done`**, **`copyShared_done`** — the loops over the pages of a mapping.
* **`CopiedPages`**, **`copyMapping_done`** — one mapping.
-/

namespace OperatingSystems.Vm

open Outcomes

variable {k k' : Kernel} {parent child : Slot} {d d' : PgDir} {p p' : Proc} {va temp n x : ℕ}
  {fl : List ℕ} {m : MapEntry}

/-! ### Page tables that are missing -/

/-- The page tables of the `n` pages from `va` on. -/
def tablesAt (va n : ℕ) : Finset ℕ :=
  (Finset.range n).image fun j => (va + j) / 1024

/-- Those of them that are not there. -/
def missing (d : PgDir) (pdxs : Finset ℕ) : Finset ℕ :=
  pdxs.filter fun pdx => d.table pdx = none

/-- The page tables `pdxs` have been added. -/
def Adds (d d' : PgDir) (pdxs : Finset ℕ) : Prop :=
  ∀ pdx, d'.table pdx = none ↔ d.table pdx = none ∧ pdx ∉ pdxs

theorem Adds.refl (d : PgDir) : Adds d d ∅ := by
  intro pdx
  rw [and_iff_left (Finset.notMem_empty pdx)]

theorem Adds.trans {d'' : PgDir} {s t : Finset ℕ} (h : Adds d d' s) (h' : Adds d' d'' t) :
    Adds d d'' (s ∪ t) := by
  intro pdx
  rw [h', h, Finset.mem_union, not_or, and_assoc]

theorem tablesAt_zero (va : ℕ) : tablesAt va 0 = ∅ := rfl

theorem tablesAt_succ (va n : ℕ) : tablesAt va (n + 1) = {va / 1024} ∪ tablesAt (va + 1) n := by
  ext pdx
  simp only [tablesAt, Finset.mem_union, Finset.mem_singleton, Finset.mem_image, Finset.mem_range]
  constructor
  · rintro ⟨j, hj, rfl⟩
    cases j with
    | zero => exact .inl rfl
    | succ j => exact .inr ⟨j, by omega, by congr 1; omega⟩
  · rintro (rfl | ⟨j, hj, rfl⟩)
    · exact ⟨0, Nat.succ_pos n, rfl⟩
    · exact ⟨j + 1, by omega, by congr 1; omega⟩

/-- **What is missing for two groups** is missing for the first, and then for the second. -/
theorem missing_union {s t : Finset ℕ} (h : Adds d d' s) :
    (missing d (s ∪ t)).card = (missing d s).card + (missing d' t).card := by
  have hunion : missing d (s ∪ t) = missing d s ∪ missing d' t := by
    ext pdx
    simp only [missing, Finset.mem_filter, Finset.mem_union, h pdx]
    tauto
  have hdisjoint : Disjoint (missing d s) (missing d' t) := by
    rw [Finset.disjoint_left]
    intro pdx hs ht
    exact ((h pdx).mp (Finset.mem_filter.mp ht).2).2 (Finset.mem_filter.mp hs).1
  rw [hunion, Finset.card_union_of_disjoint hdisjoint]

/-- A page that has been mapped, with a page for the entries if there was none. -/
theorem mappages_adds {pa : ℕ} {fl' : List ℕ} (hrun : mappages d va pa fl = .ok (d', fl', true)) :
    d'.pte = Function.update d.pte va (some pa) ∧ Adds d d' {va / 1024} ∧ fl' <:+ fl ∧
      fl.length = (missing d {va / 1024}).card + fl'.length := by
  have hcard : (missing d {va / 1024}).card = if d.table (va / 1024) = none then 1 else 0 := by
    unfold missing
    rw [Finset.filter_singleton]
    split
    · exact Finset.card_singleton _
    · rfl
  have hpte : d'.pte = Function.update d.pte va (some pa) := by
    obtain ⟨-, -, ⟨-, hm⟩ | ⟨hb, -⟩⟩ := mappages_ok hrun
    · funext x
      rw [hm.pte, List.length_singleton]
      by_cases hx : x = va
      · rw [hx, Function.update_self, if_pos (by omega), Nat.sub_self]
        rfl
      · rw [Function.update_of_ne hx, if_neg (by omega)]
    · cases hb
  rcases mappages_table hrun with ⟨hsome, htable, rfl, -⟩ | ⟨hmiss, ⟨-, hb⟩ | ⟨t, rfl, htable, -⟩⟩
  · have hne : d.table (va / 1024) ≠ none := Option.isSome_iff_ne_none.mp hsome
    refine ⟨hpte, fun pdx => ?_, List.suffix_refl _, ?_⟩
    · rw [htable, Finset.mem_singleton]
      exact ⟨fun h => ⟨h, fun he => hne (he ▸ h)⟩, And.left⟩
    · rw [hcard, if_neg hne, Nat.zero_add]
  · cases hb
  · refine ⟨hpte, fun pdx => ?_, List.suffix_cons .., ?_⟩
    · rw [htable, Finset.mem_singleton]
      by_cases hpdx : pdx = va / 1024
      · rw [hpdx, Function.update_self]
        exact ⟨fun h => (Option.some_ne_none t h).elim, fun h => (h.2 rfl).elim⟩
      · rw [Function.update_of_ne hpdx, and_iff_left hpdx]
    · rw [hcard, if_pos hmiss, List.length_cons, Nat.add_comm]

/-- **One page is mapped** where it is free and there is a page for the entries. -/
theorem mappages_done (pa : ℕ) (fl : List ℕ) (hva : va < KERNBASE) (hnone : d.pte va = none)
    (hroom : (missing d {va / 1024}).card ≤ fl.length) :
    ∃ d' fl', mappages d va pa fl = .ok (d', fl', true) ∧ d'.pte = Function.update d.pte va (some pa) ∧
      Adds d d' {va / 1024} ∧ fl' <:+ fl ∧ fl.length = (missing d {va / 1024}).card + fl'.length := by
  obtain ⟨⟨d', fl', b⟩, hrun⟩ : ∃ r, mappages d va pa fl = .ok r := mappages_free hva hnone
  have hb : b = true := by
    rcases mappages_table hrun with ⟨-, -, -, hb⟩ | ⟨hmiss, ⟨rfl, -⟩ | ⟨-, -, -, hb⟩⟩
    · exact hb
    · have hmem : va / 1024 ∈ missing d {va / 1024} :=
        Finset.mem_filter.mpr ⟨Finset.mem_singleton_self _, hmiss⟩
      exact absurd (Finset.card_pos.mpr ⟨_, hmem⟩) (not_lt.mpr hroom)
    · exact hb
  subst hb
  exact ⟨d', fl', hrun, mappages_adds hrun⟩

/-- A row of pages that has been mapped. -/
theorem mapPages_adds {ps fl' : List ℕ} (hrun : mapPages d va ps fl = .ok (d', fl', true)) :
    Adds d d' (tablesAt va ps.length) ∧ fl' <:+ fl ∧
      fl.length = (missing d (tablesAt va ps.length)).card + fl'.length := by
  induction ps generalizing d va fl with
  | nil =>
    cases hrun
    exact ⟨.refl _, List.suffix_refl _, (Nat.zero_add _).symm⟩
  | cons pa ps ih =>
    obtain ⟨⟨d₁, fl₁, mapped⟩, h₁, h₂⟩ := bind_eq_ok hrun
    cases mapped with
    | false => cases h₂
    | true =>
      obtain ⟨-, hadds, hsuffix, hcount⟩ := mappages_adds h₁
      obtain ⟨hadds', hsuffix', hcount'⟩ := ih h₂
      rw [List.length_cons, tablesAt_succ, missing_union hadds]
      refine ⟨hadds.trans hadds', hsuffix'.trans hsuffix, ?_⟩
      omega

/-! ### A page through the window -/

/-- **A page is copied** into the page that the window shows, and no other page changes. -/
theorem copyPage_present {pa pb : ℕ} (hsrc : (k.proc parent).pgdir.pte va = some pa)
    (hdst : (k.proc parent).pgdir.pte temp = some pb) :
    ∃ mem, copyPage parent va temp k = .ok { k with mem := mem } ∧ (∀ q, q ≠ pb → mem q = k.mem q) ∧
      ∀ o < PGSIZE, mem pb o = k.mem pa o := by
  have hpos : 0 < PGSIZE := by decide
  have hpage : ∀ va i, i < PGSIZE → (va * PGSIZE + i) / PGSIZE = va := by
    intro va i hi
    rw [Nat.mul_comm, Nat.mul_add_div hpos, Nat.div_eq_of_lt hi, Nat.add_zero]
  have hback : k.Backed parent (va * PGSIZE) PGSIZE := by
    intro i hi
    rw [hpage va i hi, hsrc]
    rfl
  have hback' : k.Backed parent (temp * PGSIZE) (k.bytesAt parent (va * PGSIZE) PGSIZE).length := by
    intro i hi
    rw [Kernel.length_bytesAt] at hi
    rw [hpage temp i hi, hdst]
    rfl
  obtain ⟨mem, hrun, hother, hbyte⟩ := storeBytes_present hback'
  rw [Kernel.length_bytesAt] at hother hbyte
  refine ⟨mem, ?_, fun q hq => hother q fun i hi he => ?_, fun o ho => ?_⟩
  · unfold copyPage
    rw [loadBytes_present hback, ok_bind]
    exact hrun
  · rw [hpage temp i hi, hdst] at he
    exact hq (Option.some.inj he).symm
  · have halone : k.Alone parent (temp * PGSIZE) PGSIZE (temp * PGSIZE + o) := by
      intro i hi _
      rw [hpage temp i hi, hpage temp o ho]
    have hstored := hbyte (temp * PGSIZE + o) halone
    have hmod : ∀ va, (va * PGSIZE + o) % PGSIZE = o := by
      intro va
      rw [Nat.mul_comm, Nat.mul_add_mod, Nat.mod_eq_of_lt ho]
    have hdst' : (k.proc parent).pgdir.pte ((temp * PGSIZE + o) / PGSIZE) = some pb := by
      rw [hpage temp o ho, hdst]
    have hsrc' : (k.proc parent).pgdir.pte ((va * PGSIZE + o) / PGSIZE) = some pa := by
      rw [hpage va o ho, hsrc]
    rw [if_pos ⟨Nat.le_add_right .., Nat.add_lt_add_left ho _⟩, Nat.add_sub_cancel_left,
      Kernel.bytesAt, List.getElem?_map, List.getElem?_range ho, Option.map_some,
      byteAt_of_pte hsrc', byteAt_of_pte (k := { k with mem := mem }) hdst', hmod, hmod] at hstored
    exact Option.some.inj hstored

/-! ### Both directories -/

/-- Other page directories for both processes, another free list, other contents of the pages. -/
def Kernel.withDirs (k : Kernel) (parent child : Slot) (d e : PgDir) (fl : List ℕ) (mem : ℕ → Page) :
    Kernel :=
  (k.withDir child d fl mem).withDir parent e fl mem

section WithDirs

variable (k : Kernel) (d e : PgDir) (fl : List ℕ) (mem : ℕ → Page)

@[simp] theorem Kernel.withDirs_parent :
    (k.withDirs parent child d e fl mem).proc parent =
      { (k.withDir child d fl mem).proc parent with pgdir := e } :=
  Kernel.withDir_self_proc ..

theorem Kernel.withDirs_of_ne {q : Slot} (hp : q ≠ parent) (hc : q ≠ child) :
    (k.withDirs parent child d e fl mem).proc q = k.proc q :=
  (Kernel.withDir_proc_of_ne _ _ _ _ _ hp).trans (Kernel.withDir_proc_of_ne _ _ _ _ _ hc)

theorem Kernel.withDirs_parent_of_ne (hne : child ≠ parent) :
    (k.withDirs parent child d e fl mem).proc parent = { k.proc parent with pgdir := e } := by
  rw [Kernel.withDirs_parent, Kernel.withDir_proc_of_ne _ _ _ _ _ hne.symm]

theorem Kernel.withDirs_child (hne : child ≠ parent) :
    (k.withDirs parent child d e fl mem).proc child = { k.proc child with pgdir := d } :=
  (Kernel.withDir_proc_of_ne _ _ _ _ _ hne).trans (Kernel.withDir_self_proc ..)

theorem Kernel.withDirs_withDirs (hne : child ≠ parent) (d' e' : PgDir) (fl' : List ℕ) (mem' : ℕ → Page) :
    (k.withDirs parent child d e fl mem).withDirs parent child d' e' fl' mem' =
      k.withDirs parent child d' e' fl' mem' := by
  unfold Kernel.withDirs Kernel.withDir
  dsimp only
  simp only [Function.update_self, Function.update_of_ne hne, Function.update_of_ne hne.symm,
    Function.update_comm hne, Function.update_idem]

theorem Kernel.withDirs_self (k : Kernel) (parent child : Slot) :
    k.withDirs parent child (k.proc child).pgdir (k.proc parent).pgdir k.freelist k.mem = k := by
  unfold Kernel.withDirs
  rw [Kernel.withDir_self]
  exact Kernel.withDir_self k parent

end WithDirs

/-! ### The loop over the pages of a private mapping -/

/-- **The pages of a private mapping are copied**: the child maps the pages `ps`, with the bytes of the parent's
pages. -/
structure CopiedTo (k : Kernel) (parent child : Slot) (va temp : ℕ) (ps : List ℕ) (d e : PgDir) (fl : List ℕ)
    (mem : ℕ → Page) : Prop where
  mapped : ∀ x, d.pte x = if va ≤ x ∧ x < va + ps.length then ps[x - va]? else (k.proc child).pgdir.pte x
  tables : Adds (k.proc child).pgdir d (tablesAt va ps.length)
  closed : e.pte = (k.proc parent).pgdir.pte
  window : Adds (k.proc parent).pgdir e (tablesAt temp ps.length)
  suffix : fl <:+ k.freelist
  count : k.freelist.length = (missing (k.proc child).pgdir (tablesAt va ps.length)).card +
    (missing (k.proc parent).pgdir (tablesAt temp ps.length)).card + fl.length
  others : ∀ q, q ∉ ps → mem q = k.mem q
  bytes : ∀ j q pa, ps[j]? = some q → (k.proc parent).pgdir.pte (va + j) = some pa →
    ∀ o < PGSIZE, mem q o = k.mem pa o

variable {e e' : PgDir} {fl' : List ℕ} {mem mem' : ℕ → Page} {page : ℕ} {ps : List ℕ}

theorem CopiedTo.nil (k : Kernel) (parent child : Slot) (va temp : ℕ) :
    CopiedTo k parent child va temp [] (k.proc child).pgdir (k.proc parent).pgdir k.freelist k.mem := by
  refine ⟨fun x => ?_, .refl _, rfl, .refl _, List.suffix_refl _, (Nat.zero_add _).symm, fun _ _ => rfl, ?_⟩
  · rw [List.length_nil, Nat.add_zero, if_neg (by omega)]
  · intro j q pa hj
    cases hj

theorem tablesAt_one (va : ℕ) : tablesAt va 1 = {va / 1024} := by
  rw [tablesAt_succ, tablesAt_zero, Finset.union_empty]

/-- **One page** through the window. -/
theorem copyPrivate_step {pa : ℕ} (page : ℕ) (ps : List ℕ) (hne : child ≠ parent) (hva : va < KERNBASE)
    (htemp : temp < KERNBASE)
    (hfresh : (k.proc child).pgdir.pte va = none) (hwindow : (k.proc parent).pgdir.pte temp = none)
    (hsrc : (k.proc parent).pgdir.pte va = some pa)
    (hroom : (missing (k.proc child).pgdir {va / 1024}).card +
      (missing (k.proc parent).pgdir {temp / 1024}).card ≤ k.freelist.length) :
    ∃ d e fl mem, copyPrivate parent child va temp (page :: ps) k =
        copyPrivate parent child (va + 1) (temp + 1) ps (k.withDirs parent child d e fl mem) ∧
      CopiedTo k parent child va temp [page] d e fl mem := by
  obtain ⟨d, fl₁, hrun₁, hd, hadds₁, hsuf₁, hlen₁⟩ :=
    mappages_done page k.freelist hva hfresh (by omega)
  have hparent : (k.withDir child d fl₁ k.mem).proc parent = k.proc parent :=
    Kernel.withDir_proc_of_ne _ _ _ _ _ hne.symm
  obtain ⟨e, fl, hrun₂, he, hadds₂, hsuf₂, hlen₂⟩ :=
    mappages_done page fl₁ htemp hwindow (by omega)
  have hva : va ≠ temp := by
    rintro rfl
    rw [hwindow] at hsrc
    cases hsrc
  have hopen := Kernel.withDirs_parent_of_ne k d e fl k.mem hne
  have hsrc' : ((k.withDirs parent child d e fl k.mem).proc parent).pgdir.pte va = some pa := by
    rw [hopen]
    show e.pte va = some pa
    rw [he, Function.update_of_ne hva, hsrc]
  have hdst : ((k.withDirs parent child d e fl k.mem).proc parent).pgdir.pte temp = some page := by
    rw [hopen]
    show e.pte temp = some page
    rw [he, Function.update_self]
  obtain ⟨mem, hcopy, hother, hbytes⟩ := copyPage_present hsrc' hdst
  have hclosed : (e.clear temp).pte = (k.proc parent).pgdir.pte := by
    show Function.update e.pte temp none = _
    rw [he, Function.update_idem, ← hwindow, Function.update_eq_self]
  refine ⟨d, e.clear temp, fl, mem, ?_, ?_⟩
  · show (mappages _ va page _ >>= _) = _
    rw [hrun₁, ok_bind]
    dsimp only
    rw [if_neg (by decide), Kernel.withDir_eq, hparent]
    show (mappages _ temp page fl₁ >>= _) = _
    rw [hrun₂, ok_bind]
    dsimp only
    rw [if_neg (by decide)]
    show (copyPage parent va temp (k.withDirs parent child d e fl k.mem) >>= _) = _
    rw [hcopy, ok_bind]
    congr 1
    unfold Kernel.withDirs Kernel.withDir Kernel.modify
    dsimp only
    rw [Function.update_self, Function.update_idem]
  · refine ⟨fun x => ?_, ?_, hclosed, ?_, hsuf₂.trans hsuf₁, ?_, fun q hq => ?_, ?_⟩
    · rw [hd, List.length_singleton]
      by_cases hx : x = va
      · rw [hx, Function.update_self, if_pos (by omega), Nat.sub_self]
        rfl
      · rw [Function.update_of_ne hx, if_neg (by omega)]
    · rw [List.length_singleton, tablesAt_one]
      exact hadds₁
    · rw [List.length_singleton, tablesAt_one]
      exact hadds₂
    · rw [List.length_singleton, tablesAt_one, tablesAt_one, hlen₁, hlen₂]
      exact (Nat.add_assoc ..).symm
    · exact hother q fun he => hq (List.mem_singleton.mpr he)
    · intro j q pa' hj hpa'
      cases j with
      | zero =>
        cases hj
        rw [Nat.add_zero, hsrc] at hpa'
        cases hpa'
        exact hbytes
      | succ j => cases hj

/-- The first page, and then the others. -/
theorem CopiedTo.cons (hne : child ≠ parent) (h : CopiedTo k parent child va temp [page] d e fl mem)
    (h' : CopiedTo (k.withDirs parent child d e fl mem) parent child (va + 1) (temp + 1) ps d' e' fl' mem')
    (hpage : page ∉ ps)
    (hnew : ∀ x, va ≤ x → x < va + (ps.length + 1) → (k.proc parent).pgdir.pte x ≠ some page) :
    CopiedTo k parent child va temp (page :: ps) d' e' fl' mem' := by
  obtain ⟨hmapped, htables, hclosed, hwindow, hsuffix, hcount, hothers, hbytes⟩ := h
  obtain ⟨hmapped', htables', hclosed', hwindow', hsuffix', hcount', hothers', hbytes'⟩ := h'
  rw [Kernel.withDirs_child k d e fl mem hne] at hmapped' htables' hcount'
  rw [Kernel.withDirs_parent_of_ne k d e fl mem hne] at hclosed' hwindow' hcount' hbytes'
  dsimp only at hmapped' htables' hcount' hclosed' hwindow' hbytes'
  rw [List.length_singleton, tablesAt_one] at htables hwindow hcount
  rw [tablesAt_one] at hcount
  refine ⟨fun x => ?_, ?_, hclosed'.trans hclosed, ?_, hsuffix'.trans hsuffix, ?_, fun q hq => ?_, ?_⟩
  · rw [hmapped', hmapped, List.length_singleton, List.length_cons]
    rcases lt_trichotomy x va with hx | rfl | hx
    · rw [if_neg (by omega), if_neg (by omega), if_neg (by omega)]
    · rw [if_neg (by omega), if_pos (by omega), if_pos (by omega), Nat.sub_self]
      rfl
    · by_cases hlt : x < va + (ps.length + 1)
      · rw [if_pos (by omega), if_pos (by omega), show x - va = x - (va + 1) + 1 by omega,
          List.getElem?_cons_succ]
      · rw [if_neg (by omega), if_neg (by omega), if_neg (by omega)]
  · rw [List.length_cons, tablesAt_succ]
    exact htables.trans htables'
  · rw [List.length_cons, tablesAt_succ]
    exact hwindow.trans hwindow'
  · have hfl : (k.withDirs parent child d e fl mem).freelist = fl := rfl
    rw [List.length_cons, tablesAt_succ, tablesAt_succ, missing_union htables, missing_union hwindow, hcount,
      ← hfl, hcount']
    omega
  · rw [List.mem_cons, not_or] at hq
    exact (hothers' q hq.2).trans (hothers q fun he => hq.1 (List.mem_singleton.mp he))
  · intro j q pa hj hpa o ho
    cases j with
    | zero =>
      cases hj
      rw [hothers' page hpage]
      exact hbytes 0 page pa rfl hpa o ho
    | succ j =>
      have hlt : j < ps.length := Nat.lt_of_succ_lt_succ (List.getElem?_eq_some_iff.mp hj).1
      have hne : pa ∉ [page] := by
        intro he
        rw [List.mem_singleton.mp he] at hpa
        exact hnew (va + (j + 1)) (by omega) (by omega) hpa
      rw [← hothers pa hne]
      refine hbytes' j q pa hj ?_ o ho
      rw [hclosed, show va + 1 + j = va + (j + 1) by omega]
      exact hpa

theorem missing_mono {s t : Finset ℕ} (h : s ⊆ t) : (missing d s).card ≤ (missing d t).card :=
  Finset.card_le_card (Finset.filter_subset_filter _ h)

theorem copyPrivate_done (va temp : ℕ) (ps : List ℕ) (hne : child ≠ parent)
    (hend : va + ps.length ≤ KERNBASE) (hwend : temp + ps.length ≤ KERNBASE)
    (hfresh : ∀ x, va ≤ x → x < va + ps.length → (k.proc child).pgdir.pte x = none)
    (hwindow : ∀ x, temp ≤ x → x < temp + ps.length → (k.proc parent).pgdir.pte x = none)
    (hsrc : ∀ x, va ≤ x → x < va + ps.length → ((k.proc parent).pgdir.pte x).isSome)
    (hroom : (missing (k.proc child).pgdir (tablesAt va ps.length)).card +
      (missing (k.proc parent).pgdir (tablesAt temp ps.length)).card ≤ k.freelist.length)
    (hnodup : ps.Nodup)
    (hnew : ∀ q ∈ ps, ∀ x, va ≤ x → x < va + ps.length → (k.proc parent).pgdir.pte x ≠ some q) :
    ∃ d e fl mem, copyPrivate parent child va temp ps k =
      .ok (k.withDirs parent child d e fl mem, true) ∧ CopiedTo k parent child va temp ps d e fl mem := by
  induction ps generalizing va temp k with
  | nil =>
    refine ⟨_, _, _, _, ?_, .nil k parent child va temp⟩
    rw [Kernel.withDirs_self]
    rfl
  | cons page ps ih =>
    rw [List.length_cons] at hend hwend hfresh hwindow hsrc hroom hnew
    obtain ⟨hpage, hrest⟩ := List.nodup_cons.mp hnodup
    obtain ⟨pa, hpa⟩ := Option.isSome_iff_exists.mp (hsrc va (le_refl _) (by omega))
    have hfew : ∀ (d : PgDir) va, (missing d {va / 1024}).card ≤
        (missing d (tablesAt va (ps.length + 1))).card := by
      intro d va
      rw [tablesAt_succ]
      exact missing_mono Finset.subset_union_left
    obtain ⟨d, e, fl, mem, hstep, hcopied⟩ := copyPrivate_step page ps hne (by omega)
      (by omega) (hfresh va (le_refl _) (by omega)) (hwindow temp (le_refl _) (by omega)) hpa
      ((Nat.add_le_add (hfew _ va) (hfew _ temp)).trans hroom)
    have hchild := Kernel.withDirs_child k d e fl mem hne
    have hparent := Kernel.withDirs_parent_of_ne k d e fl mem hne
    have htables := hcopied.tables
    have hopened := hcopied.window
    have hcount := hcopied.count
    rw [List.length_singleton, tablesAt_one] at htables hopened hcount
    rw [tablesAt_one] at hcount
    rw [tablesAt_succ, tablesAt_succ, missing_union htables, missing_union hopened] at hroom
    have hpte : ((k.withDirs parent child d e fl mem).proc parent).pgdir.pte =
        (k.proc parent).pgdir.pte := by
      rw [hparent]
      exact hcopied.closed
    have hfresh' : ∀ x, va + 1 ≤ x → x < va + 1 + ps.length →
        ((k.withDirs parent child d e fl mem).proc child).pgdir.pte x = none := by
      intro x hx hlt
      rw [hchild]
      show d.pte x = none
      rw [hcopied.mapped, List.length_singleton, if_neg (by omega)]
      exact hfresh x (by omega) (by omega)
    have hroom' : (missing ((k.withDirs parent child d e fl mem).proc child).pgdir
          (tablesAt (va + 1) ps.length)).card +
        (missing ((k.withDirs parent child d e fl mem).proc parent).pgdir
          (tablesAt (temp + 1) ps.length)).card ≤ fl.length := by
      rw [hchild, hparent]
      dsimp only
      omega
    obtain ⟨d', e', fl', mem', hrun, hcopied'⟩ := @ih (k.withDirs parent child d e fl mem) (va + 1) (temp + 1)
      (by omega) (by omega) hfresh' (fun x hx hlt => hpte ▸ hwindow x (by omega) (by omega))
      (fun x hx hlt => hpte ▸ hsrc x (by omega) (by omega)) hroom' hrest
      (fun q hq x hx hlt => hpte ▸ hnew q (List.mem_cons_of_mem _ hq) x (by omega) (by omega))
    refine ⟨d', e', fl', mem', ?_, hcopied.cons hne hcopied' hpage (hnew page List.mem_cons_self)⟩
    rw [hstep, hrun, Kernel.withDirs_withDirs k d e fl mem hne]

/-! ### The loop over the pages of a shared mapping -/

theorem Kernel.withDir_eq_withDirs (k : Kernel) (hne : child ≠ parent) (d : PgDir) (fl : List ℕ)
    (mem : ℕ → Page) :
    k.withDir child d fl mem = k.withDirs parent child d (k.proc parent).pgdir fl mem := by
  have hself := Kernel.withDir_self (k.withDir child d fl mem) parent
  rw [Kernel.withDir_proc_of_ne _ _ _ _ _ hne.symm] at hself
  exact hself.symm

/-- **The pages of a shared mapping are mapped**: the child maps what the parent maps. -/
structure SharedTo (k : Kernel) (parent child : Slot) (va n : ℕ) (d : PgDir) (fl : List ℕ) : Prop where
  mapped : ∀ x, d.pte x =
    if va ≤ x ∧ x < va + n then (k.proc parent).pgdir.pte x else (k.proc child).pgdir.pte x
  tables : Adds (k.proc child).pgdir d (tablesAt va n)
  suffix : fl <:+ k.freelist
  count : k.freelist.length = (missing (k.proc child).pgdir (tablesAt va n)).card + fl.length

theorem walkpgdir_of_pte {pa : ℕ} (hva : va < KERNBASE) (h : d.pte va = some pa) :
    walkpgdir d va = some (some pa) := by
  obtain ⟨t, ht⟩ := Option.isSome_iff_exists.mp (d.backed va pa h)
  unfold walkpgdir
  rw [if_pos hva, ht, h]
  rfl

theorem copyShared_done (va n : ℕ) (hne : child ≠ parent) (hend : va + n ≤ KERNBASE)
    (hfresh : ∀ x, va ≤ x → x < va + n → (k.proc child).pgdir.pte x = none)
    (hsrc : ∀ x, va ≤ x → x < va + n → ((k.proc parent).pgdir.pte x).isSome)
    (hroom : (missing (k.proc child).pgdir (tablesAt va n)).card ≤ k.freelist.length) :
    ∃ d fl, copyShared parent child va n k = .ok (k.withDir child d fl k.mem, true) ∧
      SharedTo k parent child va n d fl := by
  induction n generalizing va k with
  | zero =>
    refine ⟨(k.proc child).pgdir, k.freelist, ?_, fun x => ?_, .refl _, List.suffix_refl _,
      (Nat.zero_add _).symm⟩
    · rw [Kernel.withDir_self]
      rfl
    · rw [if_neg (by omega)]
  | succ n ih =>
    obtain ⟨pa, hpa⟩ := Option.isSome_iff_exists.mp (hsrc va (le_refl _) (by omega))
    have hfew : (missing (k.proc child).pgdir {va / 1024}).card ≤ k.freelist.length := by
      refine (missing_mono ?_).trans hroom
      rw [tablesAt_succ]
      exact Finset.subset_union_left
    obtain ⟨d, fl, hrun, hd, hadds, hsuf, hlen⟩ :=
      mappages_done pa k.freelist (by omega) (hfresh va (le_refl _) (by omega)) hfew
    have hchild := Kernel.withDir_self_proc k child d fl k.mem
    have hparent := Kernel.withDir_proc_of_ne k child d fl k.mem hne.symm
    rw [tablesAt_succ, missing_union hadds] at hroom
    have hfresh' : ∀ x, va + 1 ≤ x → x < va + 1 + n →
        ((k.withDir child d fl k.mem).proc child).pgdir.pte x = none := by
      intro x hx hlt
      rw [hchild]
      show d.pte x = none
      rw [hd, Function.update_of_ne (by omega)]
      exact hfresh x (by omega) (by omega)
    have hroom' : (missing ((k.withDir child d fl k.mem).proc child).pgdir (tablesAt (va + 1) n)).card ≤
        fl.length := by
      rw [hchild]
      dsimp only
      omega
    obtain ⟨d', fl', hrun', hmapped, htables, hsuffix, hcount⟩ := @ih
      (k.withDir child d fl k.mem) (va + 1) (by omega) hfresh'
      (fun x hx hlt => hparent ▸ hsrc x (by omega) (by omega)) hroom'
    rw [hchild] at hmapped htables hcount
    rw [hparent] at hmapped
    dsimp only at hmapped htables hcount
    refine ⟨d', fl', ?_, fun x => ?_, ?_, hsuffix.trans hsuf, ?_⟩
    · unfold copyShared
      rw [walkpgdir_of_pte (by omega) hpa]
      show (mappages _ va pa _ >>= _) = _
      rw [hrun, ok_bind]
      dsimp only
      rw [if_pos rfl, Kernel.withDir_eq, hrun', Kernel.withDir_withDir]
      rfl
    · rw [hmapped, hd]
      rcases lt_trichotomy x va with hx | rfl | hx
      · rw [if_neg (by omega), if_neg (by omega), Function.update_of_ne (by omega)]
      · rw [if_neg (by omega), if_pos (by omega), Function.update_self, hpa]
      · by_cases hlt : x < va + (n + 1)
        · rw [if_pos (by omega), if_pos (by omega)]
        · rw [if_neg (by omega), if_neg (by omega), Function.update_of_ne (by omega)]
    · rw [tablesAt_succ]
      exact hadds.trans htables
    · have hfl : (k.withDir child d fl k.mem).freelist = fl := rfl
      rw [tablesAt_succ, missing_union hadds, hlen, ← hfl, hcount]
      omega

/-! ### One mapping -/

/-- The page tables that the child needs for the pages of a mapping. -/
def MapEntry.tables (m : MapEntry) : Finset ℕ :=
  if has m.flags MAP_PRIVATE || has m.flags MAP_SHARED then tablesAt m.startingVirtualAddress m.numPages
  else ∅

/-- The page tables that the parent needs for the window. -/
def MapEntry.windowTables (p : Proc) (m : MapEntry) : Finset ℕ :=
  if has m.flags MAP_PRIVATE then
    ((findfreevirtualaddress p m.numPages).map fun temp => tablesAt temp m.numPages).getD ∅
  else ∅

/-- The pages that the child gets for itself. -/
def MapEntry.freshPages (m : MapEntry) : ℕ :=
  if has m.flags MAP_PRIVATE then m.numPages else 0

/-- There is a window for the copy. -/
def MapEntry.HasWindow (p : Proc) (m : MapEntry) : Prop :=
  has m.flags MAP_PRIVATE = true → (findfreevirtualaddress p m.numPages).isSome

/-- **The pages of the mapping `m` have been copied.** -/
structure CopiedPages (parent child : Slot) (m : MapEntry) (k k' : Kernel) : Prop where
  dirs : ∃ d e fl mem, k' = k.withDirs parent child d e fl mem
  outside : ∀ x, ¬m.Covers x → (k'.proc child).pgdir.pte x = (k.proc child).pgdir.pte x
  tables : Adds (k.proc child).pgdir (k'.proc child).pgdir m.tables
  closed : (k'.proc parent).pgdir.pte = (k.proc parent).pgdir.pte
  window : Adds (k.proc parent).pgdir (k'.proc parent).pgdir (m.windowTables (k.proc parent))
  suffix : k'.freelist <:+ k.freelist
  count : k.freelist.length = m.freshPages + (missing (k.proc child).pgdir m.tables).card +
    (missing (k.proc parent).pgdir (m.windowTables (k.proc parent))).card + k'.freelist.length
  others : ∀ q, q ∉ k.freelist → k'.mem q = k.mem q
  copied : has m.flags MAP_PRIVATE = true → ∀ x, m.Covers x → ∃ pa pb,
    (k.proc parent).pgdir.pte x = some pa ∧ (k'.proc child).pgdir.pte x = some pb ∧ pb ∈ k.freelist ∧
      pb ∉ k'.freelist ∧ ∀ o < PGSIZE, k'.mem pb o = k.mem pa o
  shared : has m.flags MAP_PRIVATE = false → has m.flags MAP_SHARED = true → ∀ x, m.Covers x →
    (k'.proc child).pgdir.pte x = (k.proc parent).pgdir.pte x

/-- There is room for the copy of the mapping `m`. -/
structure CanCopy (parent child : Slot) (m : MapEntry) (k : Kernel) : Prop where
  ends : m.next ≤ KERNBASE
  fresh : ∀ x, m.Covers x → (k.proc child).pgdir.pte x = none
  source : ∀ x, m.Covers x → ((k.proc parent).pgdir.pte x).isSome
  window : m.HasWindow (k.proc parent)
  room : m.freshPages + (missing (k.proc child).pgdir m.tables).card +
    (missing (k.proc parent).pgdir (m.windowTables (k.proc parent))).card ≤ k.freelist.length
  nodup : k.freelist.Nodup
  unused : ∀ q ∈ k.freelist, ∀ x, m.Covers x → (k.proc parent).pgdir.pte x ≠ some q

theorem CanCopy.privateMapping (hne : child ≠ parent) (h : CanCopy parent child m k)
    (hprivate : has m.flags MAP_PRIVATE = true) :
    ∃ k', copyMapping parent child m k = .ok (k', true) ∧ CopiedPages parent child m k k' := by
  obtain ⟨temp, htemp⟩ := Option.isSome_iff_exists.mp (h.window hprivate)
  obtain ⟨-, hlt, hfree⟩ := findfreevirtualaddress_some htemp
  have htables : m.tables = tablesAt m.startingVirtualAddress m.numPages := by
    unfold MapEntry.tables
    rw [hprivate]
    rfl
  have hwindow : m.windowTables (k.proc parent) = tablesAt temp m.numPages := by
    unfold MapEntry.windowTables
    rw [if_pos hprivate, htemp]
    rfl
  have hpages : m.freshPages = m.numPages := if_pos hprivate
  have hroom := h.room
  rw [htables, hwindow, hpages] at hroom
  have hle : m.numPages ≤ k.freelist.length := by omega
  have hlen : (k.freelist.take m.numPages).length = m.numPages := by
    rw [List.length_take, min_eq_left hle]
  have hdisjoint : ∀ q ∈ k.freelist.take m.numPages, q ∉ k.freelist.drop m.numPages := by
    have hnodup := h.nodup
    rw [← List.take_append_drop m.numPages k.freelist] at hnodup
    intro q hq hq'
    exact List.disjoint_of_nodup_append hnodup hq hq'
  obtain ⟨d, e, fl, mem, hrun, hcopied⟩ := copyPrivate_done (k := { k with freelist := k.freelist.drop m.numPages })
    m.startingVirtualAddress temp (k.freelist.take m.numPages) hne
    (by rw [hlen]
        exact h.ends)
    (by rw [hlen]
        exact canallocatva_le hfree hlt.le)
    (by rw [hlen]
        exact fun x hx hxn => h.fresh x ⟨hx, hxn⟩)
    (by rw [hlen]
        exact fun x hx hxn => canallocatva_pte hfree hlt.le hx hxn)
    (by rw [hlen]
        exact fun x hx hxn => h.source x ⟨hx, hxn⟩)
    (by rw [hlen, List.length_drop]
        dsimp only
        omega)
    (h.nodup.sublist (List.take_sublist ..))
    (by rw [hlen]
        exact fun q hq x hx hxn => h.unused q (List.mem_of_mem_take hq) x ⟨hx, hxn⟩)
  obtain ⟨hmapped, hadds, hclosed, hopened, hsuffix, hcount, hothers, hbytes⟩ := hcopied
  rw [hlen] at hmapped hadds hopened hcount
  have hchild := Kernel.withDirs_child k d e fl mem hne
  have hparent := Kernel.withDirs_parent_of_ne k d e fl mem hne
  refine ⟨k.withDirs parent child d e fl mem, ?_, ⟨_, _, _, _, rfl⟩, ?_, ?_, ?_, ?_, ?_, ?_, ?_, ?_, ?_⟩
  · have halloc := @allocPages_of_le k _ [] hle
    rw [List.nil_append] at halloc
    unfold copyMapping
    rw [if_pos hprivate, halloc, ok_bind]
    dsimp only
    rw [htemp]
    exact hrun
  · intro x hx
    rw [hchild]
    show d.pte x = _
    rw [hmapped]
    exact if_neg hx
  · rw [hchild, htables]
    exact hadds
  · rw [hparent]
    exact hclosed
  · rw [hparent, hwindow]
    exact hopened
  · exact hsuffix.trans (List.drop_suffix ..)
  · rw [htables, hwindow, hpages]
    dsimp only at hcount
    rw [List.length_drop] at hcount
    show k.freelist.length = _ + fl.length
    omega
  · exact fun q hq => hothers q fun hin => hq (List.mem_of_mem_take hin)
  · intro _ x hx
    obtain ⟨pa, hpa⟩ := Option.isSome_iff_exists.mp (h.source x hx)
    have hj : x - m.startingVirtualAddress < (k.freelist.take m.numPages).length := by
      have hend : x < m.startingVirtualAddress + m.numPages := hx.2
      have hlo := hx.1
      omega
    have hget := List.getElem?_eq_getElem hj
    have hin := List.getElem_mem hj
    refine ⟨pa, _, hpa, ?_, List.mem_of_mem_take hin, fun hfl => hdisjoint _ hin (hsuffix.subset hfl), ?_⟩
    · rw [hchild]
      show d.pte x = _
      rw [hmapped]
      exact (if_pos hx).trans hget
    · refine hbytes _ _ pa hget ?_
      rw [Nat.add_sub_cancel' hx.1]
      exact hpa
  · intro hnot
    rw [hprivate] at hnot
    cases hnot

theorem CanCopy.sharedMapping (hne : child ≠ parent) (h : CanCopy parent child m k)
    (hprivate : has m.flags MAP_PRIVATE = false) (hshared : has m.flags MAP_SHARED = true) :
    ∃ k', copyMapping parent child m k = .ok (k', true) ∧ CopiedPages parent child m k k' := by
  have hnot : ¬has m.flags MAP_PRIVATE = true := Bool.eq_false_iff.mp hprivate
  have htables : m.tables = tablesAt m.startingVirtualAddress m.numPages := by
    unfold MapEntry.tables
    rw [hshared, Bool.or_true, if_pos rfl]
  have hwindow : m.windowTables (k.proc parent) = ∅ := if_neg hnot
  have hpages : m.freshPages = 0 := if_neg hnot
  have hroom := h.room
  rw [htables, hwindow, hpages] at hroom
  obtain ⟨d, fl, hrun, hmapped, hadds, hsuffix, hcount⟩ := copyShared_done m.startingVirtualAddress
    m.numPages hne h.ends (fun x hx hxn => h.fresh x ⟨hx, hxn⟩) (fun x hx hxn => h.source x ⟨hx, hxn⟩)
    (by omega)
  have hchild := Kernel.withDir_self_proc k child d fl k.mem
  have hparent := Kernel.withDir_proc_of_ne k child d fl k.mem hne.symm
  refine ⟨k.withDir child d fl k.mem, ?_, ⟨_, _, _, _, Kernel.withDir_eq_withDirs k hne d fl k.mem⟩,
    ?_, ?_, ?_, ?_, hsuffix, ?_, fun q _ => rfl, ?_, ?_⟩
  · unfold copyMapping
    rw [if_neg hnot, if_pos hshared]
    exact hrun
  · intro x hx
    rw [hchild]
    show d.pte x = _
    rw [hmapped]
    exact if_neg hx
  · rw [hchild, htables]
    exact hadds
  · rw [hparent]
  · rw [hparent, hwindow]
    exact .refl _
  · rw [htables, hwindow, hpages]
    show k.freelist.length = _ + fl.length
    rw [hcount]
    show _ = 0 + _ + (missing (k.proc parent).pgdir ∅).card + _
    rw [show missing (k.proc parent).pgdir ∅ = ∅ from rfl, Finset.card_empty]
    omega
  · intro hp
    exact absurd hp hnot
  · intro _ _ x hx
    rw [hchild]
    show d.pte x = _
    rw [hmapped]
    exact if_pos hx

/-- **One mapping is copied** where there is room for it. -/
theorem copyMapping_done (hne : child ≠ parent) (h : CanCopy parent child m k) :
    ∃ k', copyMapping parent child m k = .ok (k', true) ∧ CopiedPages parent child m k k' := by
  cases hprivate : has m.flags MAP_PRIVATE with
  | true => exact h.privateMapping hne hprivate
  | false =>
    cases hshared : has m.flags MAP_SHARED with
    | true => exact h.sharedMapping hne hprivate hshared
    | false =>
      have hnot : ¬has m.flags MAP_PRIVATE = true := Bool.eq_false_iff.mp hprivate
      have htables : m.tables = ∅ := by
        unfold MapEntry.tables
        rw [hprivate, hshared]
        rfl
      have hwindow : m.windowTables (k.proc parent) = ∅ := if_neg hnot
      refine ⟨k, ?_, ⟨_, _, _, _, (Kernel.withDirs_self k parent child).symm⟩, fun _ _ => rfl, ?_, rfl, ?_,
        List.suffix_refl _, ?_, fun _ _ => rfl, fun hp => absurd hp hnot, fun _ hs => ?_⟩
      · unfold copyMapping
        rw [if_neg hnot, if_neg (Bool.eq_false_iff.mp hshared)]
      · rw [htables]
        exact .refl _
      · rw [hwindow]
        exact .refl _
      · rw [htables, hwindow, show m.freshPages = 0 from if_neg hnot]
        show _ = 0 + (missing _ ∅).card + (missing _ ∅).card + _
        rw [show missing (k.proc child).pgdir ∅ = ∅ from rfl,
          show missing (k.proc parent).pgdir ∅ = ∅ from rfl, Finset.card_empty]
        omega
      · rw [hshared] at hs
        cases hs

end OperatingSystems.Vm
