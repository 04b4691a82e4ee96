import Mathlib
import OperatingSystems.Vm.Ownership

/-!
# The image of a process, and its end

`sbrk`, `exec`, `exit` and `wait`, and what happens to the pages.  The image of a process lies below the
mappings, as long as no `sbrk` asks for more; an image that `exec` has loaded has its pages in memory, and
there are not as many.

* **`Reshaped`** — pages go between the free list and the image; the mappings stay.
* **`allocuvm_ok`**, **`deallocuvm_ok`**, **`buildImage_ok`**, **`setupkvm_ok`** — the functions on a
  directory, also one that no process has yet.
* **`Sound.growproc`**, **`Sound.exec`**, **`Sound.exit`**, **`Sound.wait`** — the calls.
-/

namespace OperatingSystems.Vm

open Outcomes Custody

variable {k k' : Kernel} {c : Slot} {d d' d'' : PgDir} {va n sz oldsz newsz : ℕ} {hand : Multiset ℕ}
  {fl fl' fl'' : List ℕ} {contents : ℕ → Page}

/-! ### The pages of a directory -/

/-- What `freevm` frees. -/
theorem PgDir.coe_pages (d : PgDir) : (d.pages : Multiset ℕ) = d.own + d.rangePages := by
  have hrange : List.range KERNBASE =
      List.range MMAPBASE ++ (List.range (KERNBASE - MMAPBASE)).map (MMAPBASE + ·) := by
    rw [← List.range_add, Nat.add_sub_cancel' (by decide)]
  unfold PgDir.pages PgDir.own PgDir.rangePages holdings
  rw [hrange, List.filterMap_append, List.filterMap_map, ← Multiset.coe_add, ← Multiset.coe_add,
    ← Multiset.coe_add]
  show _ + (List.filterMap (fun i => d.pte (MMAPBASE + i)) _ : Multiset ℕ) + _ + _ = _
  abel

theorem mem_rangePages {x : ℕ} : x ∈ d.rangePages ↔ x ∈ d.mapped := by
  refine mem_holdings.trans (exists_congr fun i => ?_)
  rw [List.mem_range]

/-- An entry of the image is emptied. -/
theorem own_clear_image {pa : ℕ} (hva : va < MMAPBASE) (hpte : d.pte va = some pa) :
    d.own = {pa} + (d.clear va).own := by
  have hcell := holdings_empty (List.mem_range.mpr hva) List.nodup_range hpte
  unfold PgDir.own
  rw [hcell, ← Multiset.singleton_add, add_assoc, add_assoc, ← add_assoc (holdings _ _)]
  rfl

/-- A page is mapped in the image. -/
theorem Mapped.image_le {pa : ℕ} (h : Mapped d d' va [pa] fl fl') (hnone : d.pte va = none) :
    (fl' : Multiset ℕ) + d'.own ≤ {pa} + (fl + d.own) := by
  obtain ⟨ts, rfl, htables⟩ := h.tables
  have hpte : d'.pte = Function.update d.pte va (some pa) := by
    funext x
    rw [h.pte, List.length_singleton]
    by_cases hx : x = va
    · rw [hx, Function.update_self, if_pos (by omega), Nat.sub_self]
      rfl
    · rw [Function.update_of_ne hx, if_neg (by omega)]
  have hle : holdings (List.range (KERNBASE / 1024)) d'.table ≤
      ts + holdings (List.range (KERNBASE / 1024)) d.table :=
    htables.holdings_le List.nodup_range
  unfold PgDir.own
  rw [hpte, h.kvm, ← Multiset.coe_add]
  calc (fl' : Multiset ℕ) + (holdings (List.range MMAPBASE) (Function.update d.pte va (some pa)) +
        holdings (List.range (KERNBASE / 1024)) d'.table + d.kvm)
      ≤ fl' + (({pa} + holdings (List.range MMAPBASE) d.pte) +
        (ts + holdings (List.range (KERNBASE / 1024)) d.table) + d.kvm) := by
        refine add_le_add_right (add_le_add_left (add_le_add ?_ hle) _) _
        rw [Multiset.singleton_add]
        exact holdings_fill_le List.nodup_range hnone
    _ = _ := by abel

/-! ### Reshaping the image -/

/-- **Pages go between the free list and the directory**, or are lost; the mappings stay. -/
structure Reshaped (d d' : PgDir) (fl fl' : List ℕ) : Prop where
  range : ∀ x, MMAPBASE ≤ x → d'.pte x = d.pte x
  pages : (fl' : Multiset ℕ) + d'.own ≤ fl + d.own

theorem Reshaped.refl (d : PgDir) (fl : List ℕ) : Reshaped d d fl fl :=
  ⟨fun _ _ => rfl, le_refl _⟩

theorem Reshaped.trans (h : Reshaped d d' fl fl') (h' : Reshaped d' d'' fl' fl'') :
    Reshaped d d'' fl fl'' :=
  ⟨fun x hx => (h'.range x hx).trans (h.range x hx), h'.pages.trans h.pages⟩

theorem Reshaped.mapped (h : Reshaped d d' fl fl') : d'.mapped = d.mapped := by
  refine Set.ext fun x => exists_congr fun i => and_congr_right fun _ => ?_
  rw [h.range _ (Nat.le_add_right ..)]

/-- A page from the free list is mapped in the image. -/
theorem Reshaped.map {pa : ℕ} (h : Mapped d d' va [pa] fl fl') (hnone : d.pte va = none)
    (hva : va < MMAPBASE) : Reshaped d d' (pa :: fl) fl' := by
  refine ⟨fun x hx => ?_, ?_⟩
  · rw [h.pte, List.length_singleton, if_neg (by omega)]
  · rw [← Multiset.cons_coe, ← Multiset.singleton_add, add_assoc]
    exact h.image_le hnone

/-- A page of the image goes to the free list. -/
theorem Reshaped.clear {pa : ℕ} (hpte : d.pte va = some pa) (hva : va < MMAPBASE) :
    Reshaped d (d.clear va) fl (pa :: fl) := by
  refine ⟨fun x hx => ?_, le_of_eq ?_⟩
  · exact Function.update_of_ne (by omega) ..
  · rw [own_clear_image hva hpte, ← Multiset.cons_coe, ← Multiset.singleton_add]
    abel

/-- The pages `vs` are lost on the way. -/
theorem Reshaped.of_le {fl₁ : List ℕ} (h : Reshaped d d' fl fl') (hle : (fl : Multiset ℕ) ≤ fl₁) :
    Reshaped d d' fl₁ fl' :=
  ⟨h.range, h.pages.trans (add_le_add_left hle _)⟩

/-! ### `deallocuvm` and `allocuvm` -/

theorem imagePages_le (h : sz ≤ MMAPBASE * PGSIZE) : imagePages sz ≤ MMAPBASE := by
  unfold imagePages
  rw [← Nat.lt_succ_iff, Nat.div_lt_iff_lt_mul (by decide), Nat.succ_mul]
  have hpos : 0 < PGSIZE := by decide
  omega

theorem deallocPages_ok {vas : List ℕ} (hvas : ∀ x ∈ vas, MMAPBASE ≤ x → d.pte x = none)
    (h : deallocPages d vas k = .ok (k', d')) :
    ∃ fl mem, k' = { k with freelist := fl, mem := mem } ∧ Reshaped d d' k.freelist fl := by
  induction vas generalizing d k with
  | nil =>
    cases h
    exact ⟨_, _, rfl, .refl ..⟩
  | cons va vas ih =>
    have hrest : ∀ x ∈ vas, MMAPBASE ≤ x → d.pte x = none :=
      fun x hx => hvas x (List.mem_cons_of_mem _ hx)
    unfold deallocPages at h
    cases hpte : d.pte va with
    | none =>
      rw [hpte] at h
      exact ih hrest h
    | some pa =>
      rw [hpte] at h
      obtain ⟨k₁, h₁, h₂⟩ := bind_eq_ok h
      obtain ⟨-, mem, rfl⟩ := kfree_ok h₁
      have hva : va < MMAPBASE := by
        by_contra hle
        rw [hvas va List.mem_cons_self (not_lt.mp hle)] at hpte
        cases hpte
      have hclear : ∀ x ∈ vas, MMAPBASE ≤ x → (d.clear va).pte x = none := by
        intro x hx hlo
        rw [show (d.clear va).pte x = d.pte x from Function.update_of_ne (by omega) ..]
        exact hrest x hx hlo
      obtain ⟨fl, mem', rfl, hreshaped⟩ := ih hclear h₂
      exact ⟨fl, mem', rfl, (Reshaped.clear hpte hva).trans hreshaped⟩

/-- The pages from `newsz` to `oldsz` are in the image, or there are none in the range of the mappings. -/
theorem deallocuvm_ok (hold : oldsz ≤ MMAPBASE * PGSIZE ∨ ∀ x, MMAPBASE ≤ x → d.pte x = none)
    (h : deallocuvm d oldsz newsz k = .ok (k', d', sz)) :
    (∃ fl mem, k' = { k with freelist := fl, mem := mem } ∧ Reshaped d d' k.freelist fl) ∧
      sz ≤ oldsz := by
  unfold deallocuvm at h
  split at h
  · cases h
    exact ⟨⟨_, _, rfl, .refl ..⟩, le_refl _⟩
  · rename_i hlt
    obtain ⟨⟨k₁, d₁⟩, h₁, h₂⟩ := bind_eq_ok h
    cases h₂
    refine ⟨deallocPages_ok (fun x hx hlo => ?_) h₁, by omega⟩
    rcases hold with hold | hnone
    · have hle := imagePages_le hold
      have hmem := List.mem_range'_1.mp hx
      omega
    · exact hnone x hlo

/-- The pages end below the mappings: they are so few, or there are no more free pages than that, and nothing
is mapped in the range. -/
def FitsBelow (d : PgDir) (va n newsz : ℕ) (fl : List ℕ) : Prop :=
  (newsz ≤ MMAPBASE * PGSIZE ∧ va + n ≤ MMAPBASE) ∨
    ((∀ x, MMAPBASE ≤ x → d.pte x = none) ∧ va + fl.length ≤ MMAPBASE)

theorem FitsBelow.dealloc (h : FitsBelow d va n newsz fl) :
    newsz ≤ MMAPBASE * PGSIZE ∨ ∀ x, MMAPBASE ≤ x → d.pte x = none :=
  h.imp And.left And.left

/-- The next page is below the mappings, and so are those after it. -/
theorem FitsBelow.step {page : ℕ} {rest : List ℕ} (h : FitsBelow d va (n + 1) newsz (page :: rest))
    (hm : Mapped d d' va [page] rest fl) : va < MMAPBASE ∧ FitsBelow d' (va + 1) n newsz fl := by
  have hlen := hm.suffix.length_le
  rcases h with ⟨hnew, hn⟩ | ⟨hnone, hroom⟩
  · exact ⟨by omega, .inl ⟨hnew, by omega⟩⟩
  · rw [List.length_cons] at hroom
    refine ⟨by omega, .inr ⟨fun x hx => ?_, by omega⟩⟩
    rw [hm.pte, List.length_singleton, if_neg (by omega)]
    exact hnone x hx

theorem allocImage_ok {b : Bool} (hfits : FitsBelow d va n newsz k.freelist)
    (h : allocImage d contents oldsz newsz va n k = .ok (k', d', b)) :
    ∃ fl mem, k' = { k with freelist := fl, mem := mem } ∧ Reshaped d d' k.freelist fl ∧
      (b = true → n + fl.length ≤ k.freelist.length) := by
  induction n generalizing va d k with
  | zero =>
    cases h
    exact ⟨_, _, rfl, .refl .., fun _ => (Nat.zero_add _).le⟩
  | succ n ih =>
    cases hfl : k.freelist with
    | nil =>
      simp only [allocImage, hfl, kalloc] at h
      obtain ⟨⟨k₁, d₁, sz⟩, h₁, h₂⟩ := bind_eq_ok h
      cases h₂
      obtain ⟨fl, mem, rfl, hdealloc⟩ := (deallocuvm_ok hfits.dealloc h₁).1
      rw [hfl] at hdealloc
      exact ⟨fl, mem, rfl, hdealloc, fun hb => by cases hb⟩
    | cons page rest =>
      simp only [allocImage, hfl, kalloc] at h
      rw [hfl] at hfits
      obtain ⟨⟨d₁, fl₁, mapped⟩, h₁, h₂⟩ := bind_eq_ok h
      dsimp only at h₂
      obtain ⟨-, hnone, ⟨rfl, hm⟩ | ⟨rfl, rfl, rfl, -, -⟩⟩ := mappages_ok h₁
      · obtain ⟨hva, hfits₁⟩ := hfits.step hm
        obtain ⟨fl, mem, rfl, hreshaped, hlen⟩ := ih hfits₁ h₂
        refine ⟨fl, mem, rfl, (Reshaped.map hm hnone hva).trans hreshaped, fun hb => ?_⟩
        have hle : fl₁.length ≤ rest.length := hm.suffix.length_le
        have hend : n + fl.length ≤ fl₁.length := hlen hb
        rw [List.length_cons]
        omega
      · -- no page of entries is left: the page that was taken goes back last
        rw [if_neg (by decide)] at h₂
        obtain ⟨⟨k₁, d₂, sz⟩, h₃, h₄⟩ := bind_eq_ok h₂
        obtain ⟨⟨fl, mem, rfl, hreshaped⟩, -⟩ := deallocuvm_ok hfits.dealloc h₃
        obtain ⟨k₂, h₅, h₆⟩ := bind_eq_ok h₄
        obtain ⟨-, mem', rfl⟩ := kfree_ok h₅
        cases h₆
        refine ⟨page :: fl, mem', rfl, ⟨hreshaped.range, ?_⟩, fun hb => by cases hb⟩
        rw [← Multiset.cons_coe, ← Multiset.cons_coe, Multiset.cons_add, Multiset.cons_add]
        exact Multiset.cons_le_cons _ hreshaped.pages

theorem allocuvm_ok (hold : oldsz ≤ MMAPBASE * PGSIZE) (hnew : newsz ≤ MMAPBASE * PGSIZE)
    (h : allocuvm d contents oldsz newsz k = .ok (k', d', sz)) :
    (∃ fl mem, k' = { k with freelist := fl, mem := mem } ∧ Reshaped d d' k.freelist fl) ∧
      sz ≤ MMAPBASE * PGSIZE := by
  unfold allocuvm at h
  split at h
  · cases h
    exact ⟨⟨_, _, rfl, .refl ..⟩, Nat.zero_le _⟩
  · split at h
    · cases h
      exact ⟨⟨_, _, rfl, .refl ..⟩, hold⟩
    · obtain ⟨⟨k₁, d₁, done⟩, h₁, h₂⟩ := bind_eq_ok h
      cases h₂
      have hle := imagePages_le hold
      have hle' := imagePages_le hnew
      obtain ⟨fl, mem, rfl, hreshaped, -⟩ := allocImage_ok (.inl ⟨hnew, by omega⟩) h₁
      refine ⟨⟨fl, mem, rfl, hreshaped⟩, ?_⟩
      split
      · exact hnew
      · exact Nat.zero_le _

theorem imagePages_mono {m : ℕ} (h : m ≤ n) : imagePages m ≤ imagePages n :=
  Nat.div_le_div_right (by omega)

theorem le_imagePages_mul (n : ℕ) : n ≤ imagePages n * PGSIZE := by
  unfold imagePages PGSIZE
  omega

theorem imagePages_mul (n : ℕ) : imagePages (n * PGSIZE) = n := by
  unfold imagePages PGSIZE
  omega

/-- **In a directory without mappings** an image cannot reach the range: there are not enough free pages. -/
theorem allocuvm_fits (hnone : ∀ x, MMAPBASE ≤ x → d.pte x = none)
    (hroom : imagePages oldsz + k.freelist.length ≤ MMAPBASE)
    (h : allocuvm d contents oldsz newsz k = .ok (k', d', sz)) :
    ∃ fl mem, k' = { k with freelist := fl, mem := mem } ∧ Reshaped d d' k.freelist fl ∧
      (sz ≠ 0 → imagePages sz + fl.length ≤ MMAPBASE) := by
  unfold allocuvm at h
  split at h
  · cases h
    exact ⟨_, _, rfl, .refl .., fun hsz => absurd rfl hsz⟩
  · split at h
    · cases h
      exact ⟨_, _, rfl, .refl .., fun _ => hroom⟩
    · rename_i hle
      obtain ⟨⟨k₁, d₁, done⟩, h₁, h₂⟩ := bind_eq_ok h
      cases h₂
      have hmono : imagePages oldsz ≤ imagePages newsz := imagePages_mono (not_lt.mp hle)
      obtain ⟨fl, mem, rfl, hreshaped, hlen⟩ := allocImage_ok (.inr ⟨hnone, hroom⟩) h₁
      refine ⟨fl, mem, rfl, hreshaped, fun hsz => ?_⟩
      cases done with
      | false => exact absurd rfl hsz
      | true =>
        have hfew := hlen rfl
        rw [if_pos rfl]
        omega

/-! ### A new directory -/

theorem empty_backed (va pa : ℕ) (h : (fun _ => none : ℕ → Option ℕ) va = some pa) :
    ((fun _ => none : ℕ → Option ℕ) (va / 1024)).isSome :=
  absurd h (Option.some_ne_none pa).symm

/-- A directory with nothing in it, not even its own pages. -/
def PgDir.empty : PgDir := ⟨[], fun _ => none, fun _ => none, empty_backed⟩

theorem own_empty : PgDir.empty.own = 0 := by
  have hnone : ∀ m, List.filterMap (fun _ => none) (List.range m) = ([] : List ℕ) := by
    intro m
    exact List.filterMap_eq_nil_iff.mpr fun _ _ => rfl
  unfold PgDir.own holdings PgDir.empty
  rw [hnone, hnone]
  rfl

theorem notMem_mapped_empty (x : ℕ) : x ∉ PgDir.empty.mapped := by
  intro ⟨i, hi, hpte⟩
  cases hpte

/-- A directory that is built up of the free list. -/
theorem Reshaped.le (h : Reshaped .empty d fl fl') : (fl' : Multiset ℕ) + d.own ≤ fl := by
  have hpages := h.pages
  rwa [own_empty, add_zero] at hpages

theorem Reshaped.rangePages_eq (h : Reshaped .empty d fl fl') : d.rangePages = 0 := by
  refine Multiset.eq_zero_of_forall_notMem fun x hx => ?_
  rw [mem_rangePages, h.mapped] at hx
  exact notMem_mapped_empty x hx

theorem setupkvm_ok {r : Option PgDir} (h : setupkvm k = .ok (k', r)) :
    ∃ fl mem, k' = { k with freelist := fl, mem := mem } ∧ (fl : Multiset ℕ) ≤ k.freelist ∧
      ∀ d, r = some d → Reshaped .empty d k.freelist fl := by
  obtain ⟨⟨k₁, pages⟩, h₁, h₂⟩ := bind_eq_ok h
  obtain ⟨-, rfl, rfl⟩ | ⟨-, rfl, mem, rfl⟩ := allocPages_ok h₁
  · cases h₂
    refine ⟨_, _, rfl, (List.drop_suffix ..).sublist.subperm, ?_⟩
    intro d hd
    cases hd
    refine ⟨fun _ _ => rfl, ?_⟩
    rw [own_empty, add_zero]
    have hown : ∀ kvm hbacked, (PgDir.mk kvm (fun _ => none) (fun _ => none) hbacked).own = kvm := by
      intro kvm hbacked
      have hempty := own_empty
      unfold PgDir.own PgDir.empty at hempty
      unfold PgDir.own
      rw [Multiset.coe_nil, add_zero] at hempty
      dsimp only
      rw [hempty, zero_add]
    rw [hown, List.nil_append, Multiset.coe_add, ← Multiset.coe_add, add_comm, Multiset.coe_add,
      List.take_append_drop]
  · cases h₂
    refine ⟨_, mem, rfl, ?_, fun d hd => by cases hd⟩
    rw [List.nil_append, Multiset.coe_reverse]

/-- A directory without mappings is freed. -/
theorem freevm_ok (hd : d.rangePages = 0) (h : freevm d k = .ok k') :
    ∃ fl mem, k' = { k with freelist := fl, mem := mem } ∧ (fl : Multiset ℕ) = k.freelist + d.own := by
  obtain ⟨-, mem, rfl⟩ := kfreeAll_ok h
  refine ⟨_, mem, rfl, ?_⟩
  rw [← Multiset.coe_add, Multiset.coe_reverse, PgDir.coe_pages, hd, add_zero, add_comm]

theorem buildImage_ok {r : Option PgDir} (hfresh : d.rangePages = 0) (hn : va + n ≤ MMAPBASE)
    (h : buildImage d contents va n k = .ok (k', r)) :
    ∃ fl mem, k' = { k with freelist := fl, mem := mem } ∧ (fl : Multiset ℕ) ≤ k.freelist + d.own ∧
      ∀ d', r = some d' → Reshaped d d' k.freelist fl := by
  induction n generalizing va d k with
  | zero =>
    cases h
    refine ⟨_, _, rfl, Multiset.le_add_right .., ?_⟩
    intro d' hd'
    cases hd'
    exact .refl ..
  | succ n ih =>
    cases hfl : k.freelist with
    | nil =>
      simp only [buildImage, hfl, kalloc] at h
      obtain ⟨k₁, h₁, h₂⟩ := bind_eq_ok h
      cases h₂
      obtain ⟨fl, mem, rfl, heq⟩ := freevm_ok hfresh h₁
      refine ⟨fl, mem, rfl, ?_, fun d' hd' => by cases hd'⟩
      rw [heq, hfl]
    | cons page rest =>
      simp only [buildImage, hfl, kalloc] at h
      obtain ⟨⟨d₁, fl₁, mapped⟩, h₁, h₂⟩ := bind_eq_ok h
      dsimp only at h₂
      obtain ⟨-, hnone, ⟨rfl, hm⟩ | ⟨rfl, rfl, rfl, -, -⟩⟩ := mappages_ok h₁
      · have hmap := Reshaped.map hm hnone (by omega)
        have hfresh₁ : d₁.rangePages = 0 := by
          refine Multiset.eq_zero_of_forall_notMem fun x hx => ?_
          rw [mem_rangePages, hmap.mapped, ← mem_rangePages, hfresh] at hx
          exact Multiset.notMem_zero x hx
        obtain ⟨fl, mem, rfl, hle, hr⟩ := ih hfresh₁ (by omega) h₂
        exact ⟨fl, mem, rfl, hle.trans hmap.pages, fun d' hd' => hmap.trans (hr d' hd')⟩
      · rw [if_neg (by decide)] at h₂
        obtain ⟨k₁, h₃, h₄⟩ := bind_eq_ok h₂
        obtain ⟨-, mem, rfl⟩ := kfree_ok h₃
        obtain ⟨k₂, h₅, h₆⟩ := bind_eq_ok h₄
        cases h₆
        obtain ⟨fl, mem', rfl, heq⟩ := freevm_ok hfresh h₅
        refine ⟨fl, mem', rfl, le_of_eq heq, fun d' hd' => by cases hd'⟩

/-! ### `sbrk` -/

theorem Sound.reshape (h : Sound hand k) (hlive : (k.proc c).Live)
    (hr : Reshaped (k.proc c).pgdir d k.freelist fl) (mem : ℕ → Page) :
    Sound hand (k.withDir c d fl mem) := by
  have htidy := h.tidy c hlive.1
  have hproc := Kernel.withDir_self_proc k c d fl mem
  refine h.change c 0 0 (fun q hq => Kernel.withDir_proc_of_ne k c d fl mem hq) rfl ?_
    Multiset.nodup_zero (fun x hx => absurd hx (Multiset.notMem_zero x)) ?_
  · rw [hproc, own_of_live hlive.1, own_of_live (p := { k.proc c with pgdir := d }) hlive.1, add_zero,
      zero_add]
    calc hand + (fl : Multiset ℕ) + ({(k.proc c).kstack} + d.own)
        = hand + {(k.proc c).kstack} + (fl + d.own) := by abel
      _ ≤ hand + {(k.proc c).kstack} + (k.freelist + (k.proc c).pgdir.own) :=
          add_le_add_right hr.pages _
      _ = _ := by abel
  · rw [hproc]
    refine fun _ => ⟨⟨?_, ?_, ?_, htidy.starts, htidy.size⟩, ?_⟩
    · intro i hi j hj x hpi hpj
      rw [hr.range _ (Nat.le_add_right ..)] at hpi hpj
      exact htidy.once i hi j hj x hpi hpj
    · rw [hr.mapped]
      exact htidy.kinds
    · rw [hr.mapped]
      exact htidy.zombie
    · rw [hr.mapped]
      exact fun x hx => .inl ⟨c, hlive.1, hx⟩

/-- Another size. -/
theorem Sound.resize (h : Sound hand k) (hsz : sz ≤ MMAPBASE * PGSIZE) :
    Sound hand (k.modify c fun p => { p with sz := sz }) := by
  have hproc : (k.modify c fun p => { p with sz := sz }).proc c = { k.proc c with sz := sz } :=
    Kernel.modify_self ..
  refine h.change c 0 0 (fun q hq => Kernel.modify_of_ne k hq _) rfl ?_
    Multiset.nodup_zero (fun x hx => absurd hx (Multiset.notMem_zero x)) ?_
  · rw [hproc, add_zero, zero_add]
    exact le_refl _
  · rw [hproc]
    intro hq
    have htidy := h.tidy c hq
    exact ⟨⟨htidy.once, htidy.kinds, htidy.zombie, htidy.starts, hsz⟩, fun x hx => .inl ⟨c, hq, hx⟩⟩

/-- `sbrk(n)` asks for an image that ends below the mappings. -/
def SbrkBelow (p : Proc) (n : ℤ) : Prop :=
  p.sz + n ≤ MMAPBASE * PGSIZE

theorem Sound.growproc {m : ℤ} {b : Bool} (h : Sound hand k) (hlive : (k.proc c).Live)
    (hbelow : SbrkBelow (k.proc c) m) (hrun : growproc c m k = .ok (k', b)) : Sound hand k' := by
  have hold := (h.tidy c hlive.1).size
  unfold Vm.growproc at hrun
  dsimp only at hrun
  split at hrun
  · cases hrun
    exact h
  · have hend : ∀ k₁ d sz, (∃ fl mem, k₁ = { k with freelist := fl, mem := mem } ∧
        Reshaped (k.proc c).pgdir d k.freelist fl) ∧ sz ≤ MMAPBASE * PGSIZE →
        (if sz = 0 then .ok (k₁.modify c fun p => { p with pgdir := d }, false)
          else .ok ((k₁.modify c fun p => { p with pgdir := d }).modify c fun p =>
            { p with sz := sz }, true) : Except Fault (Kernel × Bool)) = .ok (k', b) →
        Sound hand k' := by
      intro k₁ d sz ⟨⟨fl, mem, hk₁, hr⟩, hsz⟩ h₂
      subst hk₁
      have hsound : Sound hand (k.withDir c d fl mem) := h.reshape hlive hr mem
      split at h₂
      · cases h₂
        exact hsound
      · cases h₂
        exact hsound.resize hsz
    split at hrun
    · obtain ⟨⟨k₁, d, sz⟩, h₁, h₂⟩ := bind_eq_ok hrun
      refine hend k₁ d sz (allocuvm_ok hold ?_ h₁) h₂
      unfold SbrkBelow at hbelow
      have hconst : MMAPBASE * PGSIZE < 2 ^ 32 := by decide
      omega
    · obtain ⟨⟨k₁, d, sz⟩, h₁, h₂⟩ := bind_eq_ok hrun
      obtain ⟨hreshaped, hle⟩ := deallocuvm_ok (.inl hold) h₁
      exact hend k₁ d sz ⟨hreshaped, hle.trans hold⟩ h₂

/-! ### `exec` -/

/-- No page that the process maps is mapped by another one. -/
def OnlyMapper (k : Kernel) (c : Slot) : Prop :=
  ∀ x ∈ (k.proc c).pgdir.mapped, ∀ q, q ≠ c → (k.proc q).state ≠ .UNUSED → x ∉ (k.proc q).pgdir.mapped

theorem Sound.free_nodup (h : Sound hand k) : k.freelist.Nodup := by
  refine Multiset.coe_nodup.mp (Multiset.nodup_of_le ?_ h.custody.nodup)
  exact (Multiset.le_add_left _ _).trans (Multiset.le_add_right _ _)

/-- Each free page is one of the machine's. -/
theorem Sound.free_le (h : Sound hand k) : k.freelist.length ≤ PHYSTOP := by
  have hsub : k.freelist ⊆ List.range PHYSTOP := fun x hx =>
    List.mem_range.mpr (h.freeable x (mem_kept_free hx)).2
  have hle := (h.free_nodup.subperm hsub).length_le
  rwa [List.length_range] at hle

theorem Reshaped.range_none (h : Reshaped .empty d fl fl') : ∀ x, MMAPBASE ≤ x → d.pte x = none :=
  h.range

theorem loadSegments_ok {segments : List (Option ℕ)} {r : Option ℕ}
    (hnone : ∀ x, MMAPBASE ≤ x → d.pte x = none) (hroom : imagePages sz + k.freelist.length ≤ MMAPBASE)
    (h : loadSegments contents d sz segments k = .ok (k', d', r)) :
    ∃ fl mem, k' = { k with freelist := fl, mem := mem } ∧ Reshaped d d' k.freelist fl ∧
      ∀ sz', r = some sz' → imagePages sz' + fl.length ≤ MMAPBASE := by
  induction segments generalizing d sz k with
  | nil =>
    cases h
    refine ⟨_, _, rfl, .refl .., ?_⟩
    intro sz' hs
    cases hs
    exact hroom
  | cons e segments ih =>
    cases e with
    | none =>
      cases h
      exact ⟨_, _, rfl, .refl .., fun _ hs => by cases hs⟩
    | some newsz =>
      obtain ⟨⟨k₁, d₁, sz₁⟩, h₁, h₂⟩ := bind_eq_ok h
      obtain ⟨fl, mem, rfl, hr, hroom₁⟩ := allocuvm_fits hnone hroom h₁
      dsimp only at h₂
      split at h₂
      · cases h₂
        exact ⟨fl, mem, rfl, hr, fun _ hs => by cases hs⟩
      · rename_i hsz
        have hnone₁ : ∀ x, MMAPBASE ≤ x → d₁.pte x = none := fun x hx => (hr.range x hx).trans (hnone x hx)
        obtain ⟨fl', mem', rfl, hr', hroom₂⟩ := ih hnone₁ (hroom₁ hsz) h₂
        exact ⟨fl', mem', rfl, hr.trans hr', hroom₂⟩

/-- The new directory takes the place of the old one, which is freed. -/
theorem Sound.commit (h : Sound hand k) (hlive : (k.proc c).Live) (honly : OnlyMapper k c)
    (hd : Reshaped .empty d k.freelist fl) (hsz : sz ≤ MMAPBASE * PGSIZE) {mem : ℕ → Page}
    (hrun : freevm (k.proc c).pgdir (({ k with freelist := fl, mem := mem } : Kernel).modify c fun p =>
      { p with pgdir := d, sz := sz }) = .ok k') : Sound hand k' := by
  have htidy := h.tidy c hlive.1
  obtain ⟨hfree, mem', rfl⟩ := kfreeAll_ok hrun
  have hproc : (Kernel.modify { k with freelist := fl, mem := mem } c fun p =>
      { p with pgdir := d, sz := sz }).proc c = { k.proc c with pgdir := d, sz := sz } :=
    Kernel.modify_self ..
  have hother : ∀ q, q ≠ c → (Kernel.modify { k with freelist := fl, mem := mem } c fun p =>
      { p with pgdir := d, sz := sz }).proc q = k.proc q :=
    fun q hq => Kernel.modify_of_ne _ hq _
  have hfreed : ∀ x ∈ (k.proc c).pgdir.mapped, k.Freeable x := by
    intro x hx
    refine hfree x (Multiset.mem_coe.mp ?_)
    rw [PgDir.coe_pages]
    exact Multiset.mem_add.mpr (.inr (mem_rangePages.mpr hx))
  have hunmapped : ∀ x, x ∉ d.mapped := by
    rw [hd.mapped]
    exact notMem_mapped_empty
  refine h.change c 0 (k.proc c).pgdir.rangePages hother rfl ?_ ?_ ?_ ?_
  · dsimp only
    rw [hproc, own_of_live hlive.1, own_of_live (p := { k.proc c with pgdir := d, sz := sz }) hlive.1,
      add_zero, ← Multiset.coe_add, Multiset.coe_reverse, PgDir.coe_pages]
    calc hand + ((k.proc c).pgdir.own + (k.proc c).pgdir.rangePages + (fl : Multiset ℕ)) +
          ({(k.proc c).kstack} + d.own)
        = hand + (k.proc c).pgdir.own + (k.proc c).pgdir.rangePages + {(k.proc c).kstack} +
          (fl + d.own) := by abel
      _ ≤ hand + (k.proc c).pgdir.own + (k.proc c).pgdir.rangePages + {(k.proc c).kstack} +
          k.freelist := add_le_add_right hd.le _
      _ = _ := by abel
  · -- a page is mapped once in the old directory
    refine nodup_holdings List.nodup_range fun i hi j hj x hpi hpj => ?_
    exact htidy.once i (List.mem_range.mp hi) j (List.mem_range.mp hj) x hpi hpj
      (hfreed x ⟨i, List.mem_range.mp hi, hpi⟩)
  · intro x hx
    have hin := mem_rangePages.mp hx
    refine ⟨hfreed x hin, ⟨c, hlive.1, hin⟩, fun hmapped => ?_⟩
    obtain ⟨q, hq, hin'⟩ := ispamapped_iff.mp hmapped
    by_cases hqc : q = c
    · rw [hqc] at hin'
      dsimp only at hin'
      rw [hproc] at hin'
      exact hunmapped x hin'
    · dsimp only at hq hin'
      rw [hother q hqc] at hq hin'
      exact honly x hin q hqc hq hin'
  · dsimp only
    rw [hproc]
    refine fun _ => ⟨⟨?_, ?_, fun _ => hunmapped, htidy.starts, hsz⟩, ?_⟩
    · intro i hi j hj x hpi
      exact absurd ⟨i, hi, hpi⟩ (hunmapped x)
    · exact fun x hx => absurd hx (hunmapped x)
    · exact fun x hx => absurd hx (hunmapped x)

theorem Sound.exec {program : Program} {b : Bool} (h : Sound hand k) (hlive : (k.proc c).Live)
    (honly : OnlyMapper k c) (hrun : exec c program k = .ok (k', b)) : Sound hand k' := by
  -- a failure leaves at most as many free pages
  have hfail : ∀ d fl mem k₁, Reshaped .empty d k.freelist fl →
      freevm d { k with freelist := fl, mem := mem } = .ok k₁ → Sound hand k₁ := by
    intro d fl mem k₁ hr hfree
    obtain ⟨fl', mem', rfl, heq⟩ := freevm_ok hr.rangePages_eq hfree
    refine h.move rfl rfl ?_
    dsimp only
    rw [heq]
    exact add_le_add_right hr.le _
  obtain ⟨⟨k₁, r⟩, h₁, h₂⟩ := bind_eq_ok hrun
  obtain ⟨fl, mem, rfl, hle, hr⟩ := setupkvm_ok h₁
  cases r with
  | none =>
    cases h₂
    exact h.move rfl rfl (add_le_add_right hle _)
  | some d =>
    have hd := hr d rfl
    have hroom : imagePages 0 + fl.length ≤ MMAPBASE := by
      have hfew : fl.length ≤ k.freelist.length := Multiset.card_le_card hle
      have hall := h.free_le
      have hzero : imagePages 0 = 0 := by decide
      have hconst : PHYSTOP ≤ MMAPBASE := by decide
      omega
    obtain ⟨⟨k₂, d₁, r⟩, h₃, h₄⟩ := bind_eq_ok h₂
    obtain ⟨fl₁, mem₁, rfl, hd₁, hroom₁⟩ := loadSegments_ok hd.range_none hroom h₃
    have hloaded := hd.trans hd₁
    cases r with
    | none =>
      obtain ⟨k₃, h₅, h₆⟩ := bind_eq_ok h₄
      cases h₆
      exact hfail d₁ fl₁ mem₁ k' hloaded h₅
    | some sz =>
      obtain ⟨⟨k₃, d₂, sz'⟩, h₅, h₆⟩ := bind_eq_ok h₄
      have hrounded : imagePages (imagePages sz * PGSIZE) + fl₁.length ≤ MMAPBASE := by
        rw [imagePages_mul]
        exact hroom₁ sz rfl
      obtain ⟨fl₂, mem₂, rfl, hd₂, hroom₂⟩ := allocuvm_fits hloaded.range_none hrounded h₅
      have hnew := hloaded.trans hd₂
      dsimp only at h₆
      split at h₆
      · obtain ⟨k₄, h₇, h₈⟩ := bind_eq_ok h₆
        cases h₈
        exact hfail d₂ fl₂ mem₂ k' hnew h₇
      · rename_i hfine
        obtain ⟨k₄, h₇, h₈⟩ := bind_eq_ok h₆
        cases h₈
        have hne : sz' ≠ 0 := by
          rintro rfl
          exact hfine rfl
        have hsz' : sz' ≤ MMAPBASE * PGSIZE :=
          (le_imagePages_mul sz').trans (Nat.mul_le_mul_right _ (by have := hroom₂ hne; omega))
        exact h.commit hlive honly hnew hsz' h₇

/-! ### `exit` and `wait` -/

/-- The loop of `exit` over the descriptors. -/
def closeFiles (c : Slot) (fds : List ℕ) (k : Kernel) : Kernel :=
  fds.foldl (fun k fd =>
    match (k.proc c).ofile fd with
    | some f => fileclose f (setOfile c fd none k)
    | none => k) k

/-- Closing files changes nothing that has to do with pages. -/
theorem closeFiles_same (fds : List ℕ) :
    (∀ q, ((closeFiles c fds k).proc q).state = (k.proc q).state ∧
      ((closeFiles c fds k).proc q).kstack = (k.proc q).kstack ∧
      ((closeFiles c fds k).proc q).pgdir = (k.proc q).pgdir ∧
      ((closeFiles c fds k).proc q).mapEntries = (k.proc q).mapEntries ∧
      ((closeFiles c fds k).proc q).sz = (k.proc q).sz) ∧
    (closeFiles c fds k).freelist = k.freelist ∧ (closeFiles c fds k).kernelEnd = k.kernelEnd := by
  induction fds generalizing k with
  | nil => exact ⟨fun q => ⟨rfl, rfl, rfl, rfl, rfl⟩, rfl, rfl⟩
  | cons fd fds ih =>
    cases hf : (k.proc c).ofile fd with
    | none =>
      have hnext : closeFiles c (fd :: fds) k = closeFiles c fds k := by
        show closeFiles c fds (match (k.proc c).ofile fd with
          | some f => fileclose f (setOfile c fd none k)
          | none => k) = _
        rw [hf]
      rw [hnext]
      exact ih
    | some f =>
      have hnext : closeFiles c (fd :: fds) k =
          closeFiles c fds (fileclose f (setOfile c fd none k)) := by
        show closeFiles c fds (match (k.proc c).ofile fd with
          | some f => fileclose f (setOfile c fd none k)
          | none => k) = _
        rw [hf]
      have hproc : (fileclose f (setOfile c fd none k)).proc = (setOfile c fd none k).proc ∧
          (fileclose f (setOfile c fd none k)).freelist = k.freelist ∧
          (fileclose f (setOfile c fd none k)).kernelEnd = k.kernelEnd := by
        unfold fileclose
        dsimp only
        split
        · exact ⟨rfl, rfl, rfl⟩
        · exact ⟨rfl, rfl, rfl⟩
      obtain ⟨hq, hfl, hend⟩ := @ih (fileclose f (setOfile c fd none k))
      rw [hnext]
      refine ⟨fun q => ?_, hfl.trans hproc.2.1, hend.trans hproc.2.2⟩
      have hrest := hq q
      rw [hproc.1] at hrest
      unfold setOfile at hrest
      by_cases hqc : q = c
      · rw [hqc, Kernel.modify_self] at hrest
        rw [hqc]
        exact hrest
      · rwa [Kernel.modify_of_ne _ hqc] at hrest

/-- **The loop of `exit`** leaves none of the entries that it comes to. -/
theorem Sound.clearMappings {vas : List ℕ} (h : Sound hand k) (hlive : (k.proc c).Live)
    (hvas : ∀ va ∈ vas, va < KERNBASE) (hrun : clearMappings c vas k = .ok k') :
    Sound hand k' ∧ (k'.proc c).Live ∧ ∀ va x, (k'.proc c).pgdir.pte va = some x →
      va ∉ vas ∧ (k.proc c).pgdir.pte va = some x := by
  induction vas generalizing k with
  | nil =>
    cases hrun
    exact ⟨h, hlive, fun va x hx => ⟨List.not_mem_nil, hx⟩⟩
  | cons va vas ih =>
    have hlt := hvas va List.mem_cons_self
    have hrest : ∀ va ∈ vas, va < KERNBASE := fun v hv => hvas v (List.mem_cons_of_mem _ hv)
    unfold Vm.clearMappings at hrun
    split at hrun
    · obtain ⟨⟨k₁, b⟩, h₁, h₂⟩ := bind_eq_ok hrun
      have hsound := (h.clearpte hlive (by omega) h₁).1
      obtain ⟨-, -, hnone⟩ | ⟨pte, fl, mem, -, -, rfl, -⟩ := clearpte_ok h₁
      · rename_i hpresent
        unfold present at hpresent
        rw [hnone] at hpresent
        cases hpresent
      · obtain ⟨hs, hl, hpte⟩ := ih hsound ((live_withDir ..).mpr hlive) hrest h₂
        refine ⟨hs, hl, fun v x hx => ?_⟩
        obtain ⟨hnot, hold⟩ := hpte v x hx
        rw [Kernel.withDir_self_proc] at hold
        obtain ⟨hne, hold⟩ := clear_pte_some hold
        exact ⟨List.mem_cons.not.mpr (not_or.mpr ⟨hne, hnot⟩), hold⟩
    · rename_i hpresent
      rw [present_of_lt hlt, Bool.not_eq_true, Option.isSome_eq_false_iff,
        Option.isNone_iff_eq_none] at hpresent
      obtain ⟨hs, hl, hpte⟩ := ih h hlive hrest hrun
      refine ⟨hs, hl, fun v x hx => ?_⟩
      obtain ⟨hnot, hold⟩ := hpte v x hx
      refine ⟨List.mem_cons.not.mpr (not_or.mpr ⟨?_, hnot⟩), hold⟩
      rintro rfl
      rw [hpresent] at hold
      cases hold

/-- The pages that `exit` goes through. -/
theorem lt_of_mem_range {idx : List ℕ} (hidx : ∀ i ∈ idx, i < KERNBASE - MMAPBASE) :
    ∀ va ∈ idx.map (MMAPBASE + ·), va < KERNBASE := by
  intro va hva
  obtain ⟨i, hi, rfl⟩ := List.mem_map.mp hva
  have hlt := hidx i hi
  show MMAPBASE + i < KERNBASE
  omega

/-- A process without mappings becomes a zombie. -/
theorem Sound.zombie (h : Sound hand k) (hlive : (k.proc c).Live)
    (hnone : ∀ x, x ∉ (k.proc c).pgdir.mapped) :
    Sound hand (k.modify c fun p => { p with state := .ZOMBIE }) := by
  have htidy := h.tidy c hlive.1
  have hproc : (k.modify c fun p => { p with state := .ZOMBIE }).proc c =
      { k.proc c with state := .ZOMBIE } := Kernel.modify_self ..
  refine h.change c 0 0 (fun q hq => Kernel.modify_of_ne k hq _) rfl ?_ Multiset.nodup_zero
    (fun x hx => absurd hx (Multiset.notMem_zero x)) ?_
  · rw [hproc, own_of_live hlive.1, own_of_live (p := { k.proc c with state := .ZOMBIE })
      (fun hz => by cases hz), add_zero, zero_add]
    exact le_refl _
  · rw [hproc]
    exact fun _ => ⟨⟨htidy.once, htidy.kinds, fun _ => hnone, htidy.starts, htidy.size⟩,
      fun x hx => absurd hx (hnone x)⟩

theorem Sound.exit (h : Sound hand k) (hlive : (k.proc c).Live) (hrun : exit c k = .ok k') :
    Sound hand k' := by
  unfold Vm.exit at hrun
  split at hrun
  · cases hrun
  · obtain ⟨k₁, h₁, h₂⟩ := bind_eq_ok hrun
    cases h₂
    obtain ⟨hq, hfl, hend⟩ := @closeFiles_same k c (List.range NOFILE)
    have hclosed : Sound hand (closeFiles c (List.range NOFILE) k) := h.congr hq hfl hend
    have hlive₁ : ((closeFiles c (List.range NOFILE) k).proc c).Live := by
      unfold Proc.Live
      rw [(hq c).1]
      exact hlive
    have hvas := @lt_of_mem_range (List.range (KERNBASE - MMAPBASE)) fun i hi => List.mem_range.mp hi
    obtain ⟨hsound, hlive₂, hpte⟩ := hclosed.clearMappings hlive₁ hvas h₁
    refine (hsound.zombie hlive₂ fun x ⟨i, hi, hx⟩ => ?_).congr (fun q => ?_) rfl rfl
    · exact (hpte _ x hx).1 (List.mem_map.mpr ⟨i, List.mem_range.mpr hi, rfl⟩)
    · dsimp only
      by_cases hq : q = c
      · rw [if_pos hq, hq, Kernel.modify_self]
        exact ⟨rfl, rfl, rfl, rfl, rfl⟩
      · rw [if_neg hq, Kernel.modify_of_ne _ hq]
        split
        · exact ⟨rfl, rfl, rfl, rfl, rfl⟩
        · exact ⟨rfl, rfl, rfl, rfl, rfl⟩

theorem firstSlot_some {cond : Slot → Bool} {p : Slot} (h : firstSlot cond = some p) : cond p = true :=
  List.find?_some h

/-- What `wait` frees: everything that the zombie owns. -/
theorem Sound.wait_frees {p : Slot} (h : Sound hand k) (hrun : wait c k = .ok (k', some p)) :
    (k.proc p).state = .ZOMBIE ∧ (k'.freelist : Multiset ℕ) = (k.proc p).own + k.freelist ∧
      k'.kernelEnd = k.kernelEnd ∧ (∀ q, q ≠ p → k'.proc q = k.proc q) ∧
      (k'.proc p).state = .UNUSED := by
  unfold Vm.wait at hrun
  split at hrun
  · cases hrun
  · rename_i p' hp
    have hzombie : (k.proc p').state = .ZOMBIE := (of_decide_eq_true (firstSlot_some hp)).2
    have huse : (k.proc p').state ≠ .UNUSED := by
      rw [hzombie]
      exact fun hz => by cases hz
    obtain ⟨k₁, h₁, h₂⟩ := bind_eq_ok hrun
    obtain ⟨-, mem, rfl⟩ := kfree_ok h₁
    obtain ⟨k₂, h₃, h₄⟩ := bind_eq_ok h₂
    cases h₄
    obtain ⟨-, mem', hk₂⟩ := kfreeAll_ok h₃
    have hproc : k₂.proc = k.proc := by rw [hk₂]
    have hend : k₂.kernelEnd = k.kernelEnd := by rw [hk₂]
    have hrange : (k.proc p).pgdir.rangePages = 0 := by
      refine Multiset.eq_zero_of_forall_notMem fun x hx => ?_
      exact (h.tidy p huse).zombie hzombie x (mem_rangePages.mp hx)
    have hfl : (k₂.freelist : Multiset ℕ) = (k.proc p).own + k.freelist := by
      rw [hk₂, ← Multiset.coe_add, Multiset.coe_reverse, PgDir.coe_pages, hrange, own_of_live huse,
        ← Multiset.cons_coe, ← Multiset.singleton_add]
      abel
    refine ⟨hzombie, hfl, hend, fun q hq => ?_, ?_⟩
    · rw [Kernel.modify_of_ne _ hq, hproc]
    · rw [Kernel.modify_self]

theorem Sound.wait {r : Option Slot} (h : Sound hand k) (hrun : wait c k = .ok (k', r)) :
    Sound hand k' := by
  cases r with
  | none =>
    unfold Vm.wait at hrun
    split at hrun
    · cases hrun
      exact h
    · obtain ⟨k₁, -, h₂⟩ := bind_eq_ok hrun
      obtain ⟨k₂, -, h₄⟩ := bind_eq_ok h₂
      cases h₄
  | some p =>
    obtain ⟨-, hfl, hend, hother, hunused⟩ := h.wait_frees hrun
    refine h.change p 0 0 hother hend ?_ Multiset.nodup_zero
      (fun x hx => absurd hx (Multiset.notMem_zero x)) fun hq => absurd hunused hq
    have hown : (k'.proc p).own = 0 := if_pos hunused
    rw [hfl, hown, add_zero, add_zero, zero_add, add_assoc, add_comm (k.proc p).own]

theorem Sound.pagefault (h : Sound hand k) (hlive : (k.proc c).Live)
    (hrun : pagefault c va k = .ok k') : Sound hand k' := by
  obtain ⟨⟨k₁, grown⟩, h₁, h₂⟩ := bind_eq_ok hrun
  have hsound := h.grow hlive h₁
  dsimp only at h₂
  split at h₂
  · cases h₂
    exact hsound
  · refine hsound.exit ?_ h₂
    unfold Proc.Live
    rw [cangrowup_state h₁]
    exact hlive

end OperatingSystems.Vm
