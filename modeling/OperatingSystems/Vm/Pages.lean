import Mathlib
import OperatingSystems.Lib.Outcomes
import OperatingSystems.Vm.Calls

/-!
# What the functions on pages do

One lemma for each function below the system calls, so that the results about the calls never open a
definition again.

* **`canallocatva_iff`**, **`placeMapping_some`** — what the scanners have found out.
* **`Mapped`**, **`mapPages_ok`** — a row of pages is mapped, in full or up to the point of failure.
* **`Kernel.withDir`** — the kernel with another page directory for one process; the calls change little
  else.
* **`clearPages_ok`** — a row of entries is cleared, and pages go to the free list.
-/

namespace OperatingSystems.Vm

open Outcomes

variable {k k' : Kernel} {c : Slot} {d d' : PgDir} {p : Proc} {va : ℕ}

/-! ### The scanners -/

theorem present_of_lt (h : va < KERNBASE) : present d va = (d.pte va).isSome := by
  unfold present walkpgdir
  rw [if_pos h]
  cases hp : d.pte va with
  | none => cases d.table (va / 1024) <;> rfl
  | some pa =>
    obtain ⟨t, ht⟩ := Option.isSome_iff_exists.mp (d.backed va pa hp)
    rw [ht]
    rfl

theorem present_KERNBASE : present d KERNBASE = true := by
  unfold present walkpgdir kernelPte
  rw [if_neg (lt_irrefl _), if_pos (by decide)]
  rfl

theorem isguardpage_iff : isguardpage p va = true ↔
    ∃ i ≤ p.currentMappingIndex, (p.mapEntries i).inUse = true ∧
      (p.mapEntries i).guardPageVirtualAddress = va := by
  simp only [isguardpage, List.any_eq_true, List.mem_range, Nat.lt_succ_iff, Bool.and_eq_true,
    decide_eq_true_eq]

theorem canallocatva_iff {n : ℕ} : canallocatva p va n = true ↔
    ∀ i < n, isguardpage p (va + i) = false ∧ present p.pgdir (va + i) = false := by
  simp only [canallocatva, List.all_eq_true, List.mem_range, Bool.and_eq_true, Bool.not_eq_true']

/-- The kernel half is present, so what can be allocated ends below it. -/
theorem canallocatva_le {n : ℕ} (h : canallocatva p va n = true) (hva : va ≤ KERNBASE) :
    va + n ≤ KERNBASE := by
  by_contra hlt
  have hn := (canallocatva_iff.mp h (KERNBASE - va) (by omega)).2
  rw [Nat.add_sub_cancel' hva, present_KERNBASE] at hn
  cases hn

theorem canallocatva_pte {n : ℕ} (h : canallocatva p va n = true) (hva : va ≤ KERNBASE) {x : ℕ}
    (hx : va ≤ x) (hxn : x < va + n) : p.pgdir.pte x = none := by
  have hle := canallocatva_le h hva
  have hp := (canallocatva_iff.mp h (x - va) (by omega)).2
  rw [Nat.add_sub_cancel' hx, present_of_lt (by omega)] at hp
  exact Option.isNone_iff_eq_none.mp (by rw [← Option.not_isSome, hp]; rfl)

theorem canallocatva_guard {n : ℕ} (h : canallocatva p va n = true) {x : ℕ}
    (hx : va ≤ x) (hxn : x < va + n) {i : ℕ} (hi : i ≤ p.currentMappingIndex)
    (hm : (p.mapEntries i).inUse = true) : (p.mapEntries i).guardPageVirtualAddress ≠ x := by
  intro hg
  have hn := (canallocatva_iff.mp h (x - va) (by omega)).1
  rw [Nat.add_sub_cancel' hx] at hn
  rw [isguardpage_iff.mpr ⟨i, hi, hm, hg⟩] at hn
  cases hn

theorem findfreevirtualaddress_some {n : ℕ} (h : findfreevirtualaddress p n = some va) :
    MMAPBASE ≤ va ∧ va < KERNBASE ∧ canallocatva p va n = true := by
  obtain ⟨i, hi, rfl⟩ := Option.map_eq_some_iff.mp h
  have hmem := List.mem_of_find?_eq_some hi
  rw [List.mem_range] at hmem
  have hlt : MMAPBASE + i < KERNBASE := by
    have : MMAPBASE ≤ KERNBASE := by decide
    omega
  have hfree := List.find?_some hi
  refine ⟨?_, hlt, hfree⟩
  show MMAPBASE ≤ MMAPBASE + i
  omega

theorem placeMapping_some {a : MmapArgs} {n : ℕ} (h : placeMapping p a n = some va) :
    MMAPBASE ≤ va ∧ va < KERNBASE ∧ canallocatva p va n = true := by
  unfold placeMapping at h
  split at h
  · dsimp only at h
    split at h
    · cases h
    · rename_i hb
      split at h
      · rename_i hc
        have hva := Option.some.inj h
        subst hva
        push Not at hb
        exact ⟨hb.1, hb.2, hc⟩
      · cases h
  · exact findfreevirtualaddress_some h

theorem findmappingmetadata_some {i : ℕ} (h : findmappingmetadata p va = some i) :
    i < NMAP ∧ (p.mapEntries i).isValid = true ∧ (p.mapEntries i).startingVirtualAddress = va := by
  have hp := List.find?_some h
  rw [Bool.and_eq_true, decide_eq_true_eq] at hp
  exact ⟨List.mem_range.mp (List.mem_of_find?_eq_some h), hp.1, hp.2⟩

/-- The record at index `i` is the one that is found, if no other valid record has its address. -/
theorem findmappingmetadata_eq {i : ℕ} (hi : i < NMAP) (hv : (p.mapEntries i).isValid = true)
    (hs : (p.mapEntries i).startingVirtualAddress = va)
    (hone : ∀ j < NMAP, (p.mapEntries j).isValid = true →
      (p.mapEntries j).startingVirtualAddress = va → j = i) :
    findmappingmetadata p va = some i := by
  cases hf : findmappingmetadata p va with
  | none =>
    have hn := List.find?_eq_none.mp hf i (List.mem_range.mpr hi)
    rw [hv, hs] at hn
    simp at hn
  | some j =>
    obtain ⟨hj, hjv, hjs⟩ := findmappingmetadata_some hf
    rw [hone j hj hjv hjs]

theorem inUse_iff {m : MapEntry} : m.inUse = true ↔
    m.isValid = true ∧ MMAPBASE ≤ m.startingVirtualAddress ∧ m.startingVirtualAddress < KERNBASE := by
  simp only [MapEntry.inUse, Bool.and_eq_true, decide_eq_true_eq, and_assoc]

/-! ### Mapping pages -/

/-- Pages of entries are put one after the other at free places of the directory. -/
inductive Tables : (ℕ → Option ℕ) → List ℕ → (ℕ → Option ℕ) → Prop
  | nil (t : ℕ → Option ℕ) : Tables t [] t
  | cons {t t' : ℕ → Option ℕ} {pdx : ℕ} {x : ℕ} {xs : List ℕ} (hfree : t pdx = none)
      (hrest : Tables (Function.update t pdx (some x)) xs t') : Tables t (x :: xs) t'

theorem Tables.append {t t' t'' : ℕ → Option ℕ} {xs ys : List ℕ} (h : Tables t xs t')
    (h' : Tables t' ys t'') : Tables t (xs ++ ys) t'' := by
  induction h with
  | nil t => exact h'
  | cons hfree _ ih => exact .cons hfree (ih h')

/-- Where no page of entries is missing, none is added. -/
theorem Tables.eq_nil {t t' : ℕ → Option ℕ} {xs : List ℕ} (h : Tables t xs t')
    (hfull : ∀ pdx, (t pdx).isSome) : xs = [] := by
  cases h with
  | nil => rfl
  | @cons _ _ pdx _ _ hfree _ =>
    have hsome := hfull pdx
    rw [hfree] at hsome
    cases hsome

theorem Tables.some_of_some {t t' : ℕ → Option ℕ} {xs : List ℕ} (h : Tables t xs t') {pdx : ℕ}
    {x : ℕ} (hx : t pdx = some x) : t' pdx = some x := by
  induction h with
  | nil t => exact hx
  | @cons t t' pdx' y ys hfree _ ih =>
    refine ih ?_
    by_cases he : pdx = pdx'
    · rw [he, hfree] at hx
      cases hx
    · rw [Function.update_of_ne he]
      exact hx

/-- The pages `ps` are mapped from `va` on, with pages of entries from the free list. -/
structure Mapped (d d' : PgDir) (va : ℕ) (ps fl fl' : List ℕ) : Prop where
  pte : ∀ x, d'.pte x = if va ≤ x ∧ x < va + ps.length then ps[x - va]? else d.pte x
  kvm : d'.kvm = d.kvm
  tables : ∃ ts, fl = ts ++ fl' ∧ Tables d.table ts d'.table

theorem Mapped.refl (d : PgDir) (va : ℕ) (fl : List ℕ) : Mapped d d va [] fl fl where
  pte x := by rw [if_neg (by simp)]
  kvm := rfl
  tables := ⟨[], rfl, .nil _⟩

/-- What `mappages` does for one page, when it does not panic. -/
theorem mappages_ok {pa : ℕ} {fl fl' : List ℕ} {b : Bool}
    (h : mappages d va pa fl = .ok (d', fl', b)) :
    va < KERNBASE ∧ d.pte va = none ∧
      (b = true ∧ Mapped d d' va [pa] fl fl' ∨
        b = false ∧ d' = d ∧ fl' = fl ∧ fl = [] ∧ d.table (va / 1024) = none) := by
  unfold mappages at h
  split at h
  · cases h
  · rename_i hva
    refine ⟨by omega, ?_⟩
    have hpte : ∀ x, Function.update d.pte va (some pa) x =
        if va ≤ x ∧ x < va + [pa].length then [pa][x - va]? else d.pte x := by
      intro x
      by_cases hx : x = va
      · rw [hx, Function.update_self, if_pos ⟨le_refl _, Nat.lt_succ_self _⟩, Nat.sub_self]
        rfl
      · rw [Function.update_of_ne hx, if_neg]
        rintro ⟨h1, h2⟩
        exact hx (le_antisymm (Nat.lt_succ_iff.mp h2) h1)
    split at h
    · rename_i ht
      split at h
      · cases h
      · rename_i hp
        cases h
        refine ⟨Option.not_isSome_iff_eq_none.mp hp, Or.inl ⟨rfl, ?_⟩⟩
        exact ⟨hpte, rfl, [], rfl, .nil _⟩
    · rename_i ht
      rw [Bool.not_eq_true, Option.isSome_eq_false_iff, Option.isNone_iff_eq_none] at ht
      refine ⟨?_, ?_⟩
      · cases hp : d.pte va with
        | none => rfl
        | some x =>
          have := d.backed va x hp
          rw [ht] at this
          cases this
      · cases fl with
        | nil =>
          cases h
          exact Or.inr ⟨rfl, rfl, rfl, rfl, ht⟩
        | cons t rest =>
          cases h
          exact Or.inl ⟨rfl, hpte, rfl, [t], rfl, .cons ht (.nil _)⟩

/-- `mappages` does not panic at a free page of the user half. -/
theorem mappages_free {pa : ℕ} {fl : List ℕ} (hva : va < KERNBASE) (hp : d.pte va = none) :
    ∃ r, mappages d va pa fl = .ok r := by
  unfold mappages
  rw [if_neg (by omega)]
  split
  · rw [hp]
    exact ⟨_, rfl⟩
  · cases fl with
    | nil => exact ⟨_, rfl⟩
    | cons t rest => exact ⟨_, rfl⟩

theorem Mapped.cons {d'' : PgDir} {pa : ℕ} {ps fl fl' fl'' : List ℕ}
    (h : Mapped d d' va [pa] fl fl') (h' : Mapped d' d'' (va + 1) ps fl' fl'') :
    Mapped d d'' va (pa :: ps) fl fl'' where
  pte x := by
    rw [h'.pte, h.pte, List.length_singleton, List.length_cons]
    rcases lt_trichotomy x va with hx | rfl | hx
    · rw [if_neg (by omega), if_neg (by omega), if_neg (by omega)]
    · rw [if_neg (by omega), if_pos (by omega), if_pos (by omega), Nat.sub_self]
      rfl
    · by_cases hlt : x < va + (ps.length + 1)
      · rw [if_pos (by omega), if_pos (by omega), show x - va = x - (va + 1) + 1 by omega,
          List.getElem?_cons_succ]
      · rw [if_neg (by omega), if_neg (by omega), if_neg (by omega)]
  kvm := h'.kvm.trans h.kvm
  tables := by
    obtain ⟨ts, rfl, ht⟩ := h.tables
    obtain ⟨ts', rfl, ht'⟩ := h'.tables
    exact ⟨ts ++ ts', (List.append_assoc ..).symm, ht.append ht'⟩

theorem Mapped.table_isSome {ps fl fl' : List ℕ} (h : Mapped d d' va ps fl fl') {pdx : ℕ}
    (hs : (d.table pdx).isSome) : (d'.table pdx).isSome := by
  obtain ⟨ts, -, ht⟩ := h.tables
  obtain ⟨x, hx⟩ := Option.isSome_iff_exists.mp hs
  rw [ht.some_of_some hx]
  rfl

/-- A page of entries that is missing afterwards was missing before. -/
theorem Mapped.table_none {ps fl fl' : List ℕ} (h : Mapped d d' va ps fl fl') {pdx : ℕ}
    (hn : d'.table pdx = none) : d.table pdx = none := by
  cases ht : d.table pdx with
  | none => rfl
  | some t =>
    have hs : (d'.table pdx).isSome := h.table_isSome (by rw [ht]; rfl)
    rw [hn] at hs
    cases hs

theorem Mapped.suffix {ps fl fl' : List ℕ} (h : Mapped d d' va ps fl fl') : fl' <:+ fl := by
  obtain ⟨ts, rfl, -⟩ := h.tables
  exact List.suffix_append ..

/-- **The loop that maps a row of pages** maps the first `m` of them: all, or those before the one for
which no page of entries is left. -/
theorem mapPages_ok {ps fl fl' : List ℕ} {b : Bool}
    (h : mapPages d va ps fl = .ok (d', fl', b)) :
    ∃ m ≤ ps.length, Mapped d d' va (ps.take m) fl fl' ∧
      (b = true ∧ m = ps.length ∨
        b = false ∧ m < ps.length ∧ fl' = [] ∧ d'.table ((va + m) / 1024) = none) := by
  induction ps generalizing d va fl with
  | nil =>
    cases h
    exact ⟨0, le_refl _, Mapped.refl .., Or.inl ⟨rfl, rfl⟩⟩
  | cons pa ps ih =>
    obtain ⟨⟨d₁, fl₁, b₁⟩, h₁, h₂⟩ := bind_eq_ok h
    dsimp only at h₂
    obtain ⟨-, -, ⟨rfl, hm⟩ | ⟨rfl, rfl, rfl, rfl, ht⟩⟩ := mappages_ok h₁
    · obtain ⟨m, hle, hm', hb⟩ := ih h₂
      refine ⟨m + 1, Nat.succ_le_succ hle, hm.cons hm', ?_⟩
      rw [show va + (m + 1) = va + 1 + m by omega]
      simpa only [List.length_cons, Nat.succ_inj, Nat.add_lt_add_iff_right] using hb
    · cases h₂
      exact ⟨0, Nat.zero_le _, Mapped.refl .., Or.inr ⟨rfl, Nat.succ_pos _, rfl, ht⟩⟩

/-- The loop does not panic where all pages are free. -/
theorem mapPages_free {ps fl : List ℕ} (hle : va + ps.length ≤ KERNBASE)
    (hp : ∀ x, va ≤ x → x < va + ps.length → d.pte x = none) :
    ∃ r, mapPages d va ps fl = .ok r := by
  induction ps generalizing d va fl with
  | nil => exact ⟨_, rfl⟩
  | cons pa ps ih =>
    rw [List.length_cons] at hle hp
    obtain ⟨⟨d₁, fl₁, b₁⟩, h₁⟩ : ∃ r, mappages d va pa fl = .ok r :=
      mappages_free (by omega) (hp va (le_refl _) (by omega))
    show ∃ r, (mappages d va pa fl >>= _) = .ok r
    rw [h₁, ok_bind]
    obtain ⟨-, -, ⟨rfl, hm⟩ | ⟨rfl, -⟩⟩ := mappages_ok h₁
    · refine ih (by omega) ?_
      intro x hx hlt
      rw [hm.pte, List.length_singleton, if_neg (by omega)]
      exact hp x (by omega) (by omega)
    · exact ⟨_, rfl⟩

/-! ### The free list -/

theorem kfree_ok {v : ℕ} (h : kfree v k = .ok k') :
    k.Freeable v ∧ ∃ mem, k' = { k with freelist := v :: k.freelist, mem := mem } := by
  unfold kfree at h
  split at h
  · rename_i hv
    exact ⟨hv, _, (Except.ok.inj h).symm⟩
  · cases h

theorem kfree_of_freeable {v : ℕ} (h : k.Freeable v) : ∃ k', kfree v k = .ok k' := by
  unfold kfree
  rw [if_pos h]
  exact ⟨_, rfl⟩

theorem kfreeAll_cons (v : ℕ) (vs : List ℕ) :
    kfreeAll (v :: vs) k = (kfree v k >>= fun k => kfreeAll vs k) :=
  List.foldlM_cons ..

theorem kfreeAll_ok {vs : List ℕ} (h : kfreeAll vs k = .ok k') :
    (∀ v ∈ vs, k.Freeable v) ∧
      ∃ mem, k' = { k with freelist := vs.reverse ++ k.freelist, mem := mem } := by
  induction vs generalizing k with
  | nil =>
    cases h
    exact ⟨by simp, _, rfl⟩
  | cons v vs ih =>
    rw [kfreeAll_cons] at h
    obtain ⟨k₁, h₁, h₂⟩ := bind_eq_ok h
    obtain ⟨hv, mem₁, rfl⟩ := kfree_ok h₁
    obtain ⟨hvs, mem₂, rfl⟩ := ih h₂
    refine ⟨?_, mem₂, ?_⟩
    · intro w hw
      rcases List.mem_cons.mp hw with rfl | hw
      · exact hv
      · exact hvs w hw
    · rw [List.reverse_cons, List.append_assoc]
      rfl

theorem kfreeAll_of_freeable {vs : List ℕ} (h : ∀ v ∈ vs, k.Freeable v) :
    ∃ k', kfreeAll vs k = .ok k' := by
  induction vs generalizing k with
  | nil => exact ⟨_, rfl⟩
  | cons v vs ih =>
    obtain ⟨k₁, h₁⟩ := kfree_of_freeable (h v List.mem_cons_self)
    rw [kfreeAll_cons, h₁, ok_bind]
    obtain ⟨-, mem, rfl⟩ := kfree_ok h₁
    exact ih fun w hw => h w (List.mem_cons_of_mem _ hw)

/-- **The loop that allocates pages** takes them off the front of the free list, or puts everything back
in another order. -/
theorem allocPages_ok {n : ℕ} {got : List ℕ} {r : Option (List ℕ)}
    (h : allocPages n got k = .ok (k', r)) :
    (n ≤ k.freelist.length ∧ r = some (got ++ k.freelist.take n) ∧
        k' = { k with freelist := k.freelist.drop n }) ∨
      (k.freelist.length < n ∧ r = none ∧ ∃ mem,
        k' = { k with freelist := (got ++ k.freelist).reverse, mem := mem }) := by
  induction n generalizing got k with
  | zero =>
    cases h
    refine Or.inl ⟨Nat.zero_le _, ?_, rfl⟩
    rw [List.take_zero, List.append_nil]
  | succ n ih =>
    cases hf : k.freelist with
    | nil =>
      simp only [allocPages, hf, kalloc] at h
      obtain ⟨k₁, h₁, h₂⟩ := bind_eq_ok h
      cases h₂
      obtain ⟨-, mem, rfl⟩ := kfreeAll_ok h₁
      refine Or.inr ⟨Nat.succ_pos _, rfl, mem, ?_⟩
      rw [hf, List.append_nil, List.append_nil]
    | cons p rest =>
      simp only [allocPages, hf, kalloc] at h
      rcases ih h with ⟨hle, rfl, rfl⟩ | ⟨hlt, rfl, mem, rfl⟩
      · refine Or.inl ⟨Nat.succ_le_succ hle, ?_, rfl⟩
        rw [List.append_assoc]
        rfl
      · refine Or.inr ⟨Nat.succ_lt_succ hlt, rfl, mem, ?_⟩
        rw [List.append_assoc]
        rfl

theorem allocPages_of_le {n : ℕ} {got : List ℕ} (h : n ≤ k.freelist.length) :
    allocPages n got k =
      .ok ({ k with freelist := k.freelist.drop n }, some (got ++ k.freelist.take n)) := by
  induction n generalizing got k with
  | zero =>
    rw [List.take_zero, List.append_nil]
    rfl
  | succ n ih =>
    cases hf : k.freelist with
    | nil =>
      rw [hf] at h
      cases h
    | cons p rest =>
      rw [hf] at h
      simp only [allocPages, hf, kalloc]
      rw [ih (Nat.le_of_succ_le_succ h), List.append_assoc]
      rfl

/-! ### The kernel with another page directory -/

/-- Another page directory for process `c`, another free list, other contents of the pages. -/
def Kernel.withDir (k : Kernel) (c : Slot) (d : PgDir) (fl : List ℕ) (mem : ℕ → Page) : Kernel :=
  { k with
    freelist := fl
    mem := mem
    proc := Function.update k.proc c { k.proc c with pgdir := d } }

section WithDir

variable (k : Kernel) (c : Slot) (d : PgDir) (fl : List ℕ) (mem : ℕ → Page)

@[simp] theorem Kernel.withDir_self_proc :
    (k.withDir c d fl mem).proc c = { k.proc c with pgdir := d } :=
  Function.update_self ..

@[simp] theorem Kernel.withDir_proc_of_ne {q : Slot} (h : q ≠ c) :
    (k.withDir c d fl mem).proc q = k.proc q :=
  Function.update_of_ne h ..

@[simp] theorem Kernel.withDir_freelist : (k.withDir c d fl mem).freelist = fl := rfl

@[simp] theorem Kernel.withDir_mem : (k.withDir c d fl mem).mem = mem := rfl

@[simp] theorem Kernel.withDir_file : (k.withDir c d fl mem).file = k.file := rfl

@[simp] theorem Kernel.withDir_inode : (k.withDir c d fl mem).inode = k.inode := rfl

@[simp] theorem Kernel.withDir_kernelEnd : (k.withDir c d fl mem).kernelEnd = k.kernelEnd := rfl

@[simp] theorem Kernel.withDir_withDir (d' : PgDir) (fl' : List ℕ) (mem' : ℕ → Page) :
    (k.withDir c d fl mem).withDir c d' fl' mem' = k.withDir c d' fl' mem' := by
  unfold Kernel.withDir
  simp only [Function.update_self, Function.update_idem]

theorem Kernel.withDir_self : k.withDir c (k.proc c).pgdir k.freelist k.mem = k := by
  unfold Kernel.withDir
  rw [Function.update_eq_self]

/-- The way in which the calls write it. -/
theorem Kernel.withDir_eq :
    { k with freelist := fl }.modify c (fun p => { p with pgdir := d }) =
      k.withDir c d fl k.mem := rfl

theorem Kernel.withDir_free :
    { k with freelist := fl, mem := mem } = k.withDir c (k.proc c).pgdir fl mem := by
  unfold Kernel.withDir
  rw [Function.update_eq_self]

end WithDir

/-! ### Clearing entries -/

/-- What `clearpte` does: nothing without a page of entries, else it clears the entry and frees the page
that the entry names when it is mapped nowhere. -/
theorem clearpte_ok {b : Bool} (h : clearpte c va k = .ok (k', b)) :
    (b = false ∧ k' = k ∧ walkpgdir (k.proc c).pgdir va = none) ∨
      ∃ pte fl mem, b = true ∧ walkpgdir (k.proc c).pgdir va = some pte ∧
        k' = k.withDir c ((k.proc c).pgdir.clear va) fl mem ∧
        (fl = k.freelist ∧ mem = k.mem ∧
            ispamapped (pte.getD 0) (k.withDir c ((k.proc c).pgdir.clear va) k.freelist k.mem) ∨
          fl = pte.getD 0 :: k.freelist ∧ k.Freeable (pte.getD 0) ∧
            ¬ ispamapped (pte.getD 0)
              (k.withDir c ((k.proc c).pgdir.clear va) k.freelist k.mem)) := by
  unfold clearpte at h
  split at h
  · rename_i hw
    cases h
    exact Or.inl ⟨rfl, rfl, hw⟩
  · rename_i pte hw
    refine Or.inr ⟨pte, ?_⟩
    have hdir : (k.modify c fun p => { p with pgdir := p.pgdir.clear va }) =
        k.withDir c ((k.proc c).pgdir.clear va) k.freelist k.mem := rfl
    simp only [hdir] at h
    split at h
    · rename_i hm
      cases h
      exact ⟨_, _, rfl, hw, rfl, Or.inl ⟨rfl, rfl, hm⟩⟩
    · rename_i hm
      obtain ⟨k₁, h₁, h₂⟩ := bind_eq_ok h
      cases h₂
      obtain ⟨hv, mem, rfl⟩ := kfree_ok h₁
      exact ⟨_, mem, rfl, hw, rfl, Or.inr ⟨rfl, hv, hm⟩⟩

/-- The entries of `m` pages from `va` on are gone. -/
structure Cleared (d d' : PgDir) (va m : ℕ) : Prop where
  pte : ∀ x, d'.pte x = if va ≤ x ∧ x < va + m then none else d.pte x
  kvm : d'.kvm = d.kvm
  table : d'.table = d.table

theorem Cleared.refl (d : PgDir) (va : ℕ) : Cleared d d va 0 where
  pte x := by rw [if_neg (by omega)]
  kvm := rfl
  table := rfl

theorem Cleared.cons {m : ℕ} (h : Cleared (d.clear va) d' (va + 1) m) : Cleared d d' va (m + 1) where
  pte x := by
    rw [h.pte]
    by_cases hx : x = va
    · rw [if_neg (by omega), if_pos (by omega), hx]
      exact Function.update_self ..
    · have hc : (d.clear va).pte x = d.pte x := Function.update_of_ne hx ..
      rw [hc]
      by_cases hin : va + 1 ≤ x ∧ x < va + 1 + m
      · rw [if_pos hin, if_pos (by omega)]
      · rw [if_neg hin, if_neg (by omega)]
  kvm := h.kvm
  table := h.table

theorem walkpgdir_eq_none : walkpgdir d va = none ↔
    (va < KERNBASE ∧ d.table (va / 1024) = none) ∨ (KERNBASE ≤ va ∧ kernelPte va = none) := by
  unfold walkpgdir
  split
  · rename_i h
    simp only [Option.map_eq_none_iff, h, true_and, not_le.mpr h, false_and, or_false]
  · rename_i h
    simp only [Option.map_eq_none_iff, h, false_and, not_lt.mp h, true_and, false_or]

theorem walkpgdir_clear (x : ℕ) (h : x ≠ va) : walkpgdir (d.clear va) x = walkpgdir d x := by
  unfold walkpgdir
  have hp : (d.clear va).pte x = d.pte x := Function.update_of_ne h ..
  rw [hp]
  rfl

/-- **The loop that clears a row of entries** clears the first `m` of them: all, or those before the
first one without a page of entries. -/
theorem clearPages_ok {n : ℕ} {b : Bool} (h : clearPages c va n k = .ok (k', b)) :
    ∃ m ≤ n, ∃ d' fl mem, k' = k.withDir c d' fl mem ∧ Cleared (k.proc c).pgdir d' va m ∧
      k.freelist <:+ fl ∧
      (b = true ∧ m = n ∨
        b = false ∧ m < n ∧ walkpgdir (k.proc c).pgdir (va + m) = none) := by
  induction n generalizing va k with
  | zero =>
    cases h
    exact ⟨0, le_refl _, _, _, _, (Kernel.withDir_self ..).symm, .refl .., List.suffix_refl _,
      Or.inl ⟨rfl, rfl⟩⟩
  | succ n ih =>
    obtain ⟨⟨k₁, b₁⟩, h₁, h₂⟩ := bind_eq_ok h
    dsimp only at h₂
    obtain ⟨rfl, rfl, hw⟩ | ⟨pte, fl, mem, rfl, hw, rfl, hfl⟩ := clearpte_ok h₁
    · cases h₂
      exact ⟨0, Nat.zero_le _, _, _, _, (Kernel.withDir_self ..).symm, .refl .., List.suffix_refl _,
        Or.inr ⟨rfl, Nat.succ_pos _, hw⟩⟩
    · obtain ⟨m, hle, d', fl', mem', rfl, hc, hsuf, hb⟩ := ih h₂
      simp only [Kernel.withDir_self_proc, Kernel.withDir_freelist] at hc hsuf hb
      have hfl' : k.freelist <:+ fl := by
        rcases hfl with ⟨rfl, -⟩ | ⟨rfl, -⟩
        · exact List.suffix_refl _
        · exact List.suffix_cons ..
      refine ⟨m + 1, Nat.succ_le_succ hle, d', fl', mem', Kernel.withDir_withDir .., hc.cons,
        hfl'.trans hsuf, ?_⟩
      rcases hb with ⟨rfl, rfl⟩ | ⟨rfl, hlt, hw'⟩
      · exact Or.inl ⟨rfl, rfl⟩
      · refine Or.inr ⟨rfl, Nat.succ_lt_succ hlt, ?_⟩
        rwa [walkpgdir_clear _ (by omega), show va + 1 + m = va + (m + 1) by omega] at hw'

theorem setEntry_ok {i : ℕ} {m : MapEntry} (h : setEntry c i m k = .ok k') :
    i < NMAP ∧ k' = k.modify c fun p => { p with mapEntries := Function.update p.mapEntries i m } := by
  unfold setEntry at h
  split at h
  · rename_i hi
    exact ⟨hi, (Except.ok.inj h).symm⟩
  · cases h

end OperatingSystems.Vm
