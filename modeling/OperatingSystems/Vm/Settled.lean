import Mathlib
import OperatingSystems.Vm.Agreement

/-!
# Pages without a record

An `mmap` that fails late and a `munmap` of a part of a mapping leave pages that no record names.  Such pages
are in the way of a later mapping, and of nothing else.

* **`Mappings`** — every mapping has its pages, and no page is in two mappings.
* **`Settled`** — records and page table agree, but for pages without a record.
* **`Settled.add`**, **`Settled.drop`**, **`Settled.grow`** — a new mapping, one that is given up with some of
  its pages, and one that grows.
-/

namespace OperatingSystems.Vm

variable {p p' : Proc} {d : PgDir} {va i : ℕ} {m : MapEntry}

/-- **The mappings of a process**: they lie below `KERNBASE`, have all their pages, and have none in common. -/
structure Mappings (p : Proc) : Prop where
  index : ∀ i, IsRecord p i → i < NMAP
  within : ∀ i, IsRecord p i → (p.mapEntries i).next ≤ KERNBASE
  present : ∀ i, IsRecord p i → ∀ x, (p.mapEntries i).Covers x → (p.pgdir.pte x).isSome
  apart : ∀ i j x, IsRecord p i → IsRecord p j → (p.mapEntries i).Covers x → (p.mapEntries j).Covers x → i = j

/-- **Records and page table agree, but for pages without a record**: the records are those of a page table that
agrees with them, and the page table that the process has is like it at the mappings and their guard pages. -/
structure Settled (p : Proc) : Prop where
  records : ∃ d, Accord { p with pgdir := d }
  present : ∀ i, IsRecord p i → ∀ x, (p.mapEntries i).Covers x → (p.pgdir.pte x).isSome
  guard : ∀ i, IsRecord p i → (p.mapEntries i).growsUp = true → p.pgdir.pte (p.mapEntries i).next = none

/-- A page of a mapping is in the range of the mappings. -/
theorem IsRecord.range (hi : IsRecord p i) (hend : (p.mapEntries i).next ≤ KERNBASE) {x : ℕ}
    (hx : (p.mapEntries i).Covers x) : MMAPBASE ≤ x ∧ x < KERNBASE :=
  ⟨(inUse_iff.mp hi.2).2.1.trans hx.1, hx.2.trans_le hend⟩

theorem Agree.mappings (h : Agree p) : Mappings p := by
  refine ⟨h.index, h.within, fun i hi x hx => ?_, h.apart⟩
  obtain ⟨hlo, hhi⟩ := hi.range (h.within i hi) hx
  exact (h.present x hlo hhi).mpr ⟨i, hi, hx⟩

theorem Accord.settled (h : Accord p) : Settled p :=
  ⟨⟨p.pgdir, h⟩, h.agree.mappings.present, fun i hi hgrows => (h.agree.guard i hi hgrows).2.2⟩

theorem Settled.mappings (h : Settled p) : Mappings p := by
  obtain ⟨d, hd⟩ := h.records
  exact ⟨hd.agree.index, hd.agree.within, h.present, hd.agree.apart⟩

theorem Settled.isRecord (h : Settled p) (hi : i < NMAP) (hu : (p.mapEntries i).inUse = true) : IsRecord p i := by
  obtain ⟨d, hd⟩ := h.records
  exact hd.isRecord hi hu

/-- A directory with the given entries. -/
def PgDir.ofPte (pte : ℕ → Option ℕ) : PgDir where
  kvm := []
  table := fun _ => some 0
  pte := pte
  backed := fun _ _ _ => rfl

/-- What is free in the page table of the process is free in one that agrees with its records. -/
theorem Settled.free {e : PgDir} (h : Settled p) (he : Accord { p with pgdir := e }) (hlo : MMAPBASE ≤ va)
    (hhi : va < KERNBASE) (hfree : FreeAt p va) : FreeAt { p with pgdir := e } va := by
  refine ⟨hfree.1, ?_⟩
  rw [Bool.eq_false_iff, present_of_lt hhi]
  intro hsome
  obtain ⟨i, hi, hx⟩ := (he.agree.present va hlo hhi).mp hsome
  have hpresent := h.present i hi va hx
  rw [hfree.pte hhi] at hpresent
  cases hpresent

theorem Settled.next_ne (h : Settled p) (hfree : FreeAt p va) (hi : IsRecord p i)
    (hgrows : (p.mapEntries i).growsUp = true) : (p.mapEntries i).next ≠ va := by
  obtain ⟨e, he⟩ := h.records
  rw [← (he.agree.guard i hi hgrows).1]
  exact hfree.not_guard hi

/-! ### The operations -/

/-- **More pages at free addresses** change nothing. -/
theorem Settled.more (h : Settled p) (hentries : p'.mapEntries = p.mapEntries)
    (hindex : p'.currentMappingIndex = p.currentMappingIndex)
    (hold : ∀ x, (p.pgdir.pte x).isSome → (p'.pgdir.pte x).isSome)
    (hnew : ∀ x, (p'.pgdir.pte x).isSome → (p.pgdir.pte x).isSome ∨ FreeAt p x) : Settled p' := by
  have hrecord : ∀ i, IsRecord p' i → IsRecord p i := by
    intro i hi
    unfold IsRecord at hi ⊢
    rwa [hentries, hindex] at hi
  obtain ⟨e, he⟩ := h.records
  refine ⟨⟨e, he.congr hentries hindex fun _ _ _ => rfl⟩, fun i hi x hx => ?_, fun i hi hgrows => ?_⟩
  · rw [hentries] at hx
    exact hold x (h.present i (hrecord i hi) x hx)
  · rw [hentries] at hgrows ⊢
    refine Option.not_isSome_iff_eq_none.mp fun hsome => ?_
    rcases hnew _ hsome with hwas | hfree
    · rw [h.guard i (hrecord i hi) hgrows] at hwas
      cases hwas
    · exact h.next_ne hfree (hrecord i hi) hgrows rfl

/-- Nothing has changed. -/
theorem Settled.congr (h : Settled p) (hentries : p'.mapEntries = p.mapEntries)
    (hindex : p'.currentMappingIndex = p.currentMappingIndex) (hpte : p'.pgdir.pte = p.pgdir.pte) : Settled p' :=
  h.more hentries hindex (fun x hx => by rwa [hpte]) fun x hx => .inl (by rwa [hpte] at hx)

/-- **A new mapping.** -/
theorem Settled.add (h : Settled p) (hm : Fits p m) (hroom : p.currentMappingIndex + 1 < NMAP)
    (hpte : ∀ x, (d.pte x).isSome ↔ m.Covers x ∨ (p.pgdir.pte x).isSome) : Settled (p.addRecord d m) := by
  classical
  obtain ⟨e, he⟩ := h.records
  obtain ⟨-, hlo, -⟩ := inUse_iff.mp hm.use
  have hfits : Fits { p with pgdir := e } m := by
    refine ⟨hm.use, hm.pages, hm.ends, fun x hx => ?_, fun hgrows => ?_, hm.unguarded, hm.kind⟩
    · exact h.free he (hlo.trans hx.1) (hx.2.trans_le hm.ends) (hm.free x hx)
    · obtain ⟨hguard, hlt, hfree⟩ := hm.guard hgrows
      exact ⟨hguard, hlt, h.free he (hlo.trans (Nat.le_add_right ..)) hlt hfree⟩
  have hrecord := he.isRecord_add (d := d) hroom hm.use
  refine ⟨⟨.ofPte fun x => if m.Covers x then some 0 else e.pte x, he.add hfits hroom fun x => ?_⟩,
    fun j hj x hx => ?_, fun j hj hgrows => ?_⟩
  · show (if m.Covers x then some 0 else e.pte x).isSome = true ↔ m.Covers x ∨ (e.pte x).isSome
    split
    · rename_i hx
      exact iff_of_true rfl (.inl hx)
    · rename_i hx
      exact (or_iff_right hx).symm
  · rw [Proc.addRecord_entry] at hx
    refine (hpte x).mpr ?_
    split at hx
    · exact .inl hx
    · rename_i hne
      exact .inr (h.present j (((hrecord j).mp hj).resolve_right hne) x hx)
  · rw [Proc.addRecord_entry] at hgrows ⊢
    refine Option.not_isSome_iff_eq_none.mp fun hsome => ?_
    rcases (hpte _).mp hsome with hx | hwas
    · split at hx
      · exact lt_irrefl _ hx.2
      · rename_i hne
        rw [if_neg hne] at hgrows
        exact h.next_ne (hm.free _ hx) (((hrecord j).mp hj).resolve_right hne) hgrows rfl
    · split at hwas
      · rename_i hj'
        rw [if_pos hj'] at hgrows
        obtain ⟨-, hlt, hfree⟩ := hm.guard hgrows
        rw [hfree.pte hlt] at hwas
        cases hwas
      · rename_i hne
        rw [if_neg hne] at hgrows
        rw [h.guard j (((hrecord j).mp hj).resolve_right hne) hgrows] at hwas
        cases hwas

/-- **A mapping that is given up with some of its pages.** -/
theorem Settled.drop (h : Settled p) (hi : IsRecord p i)
    (hgone : ∀ x, (d.pte x).isSome → (p.pgdir.pte x).isSome)
    (hkept : ∀ x, ¬(p.mapEntries i).Covers x → (p.pgdir.pte x).isSome → (d.pte x).isSome) :
    Settled (p.dropRecord i d) := by
  classical
  obtain ⟨e, he⟩ := h.records
  have hold : ∀ j, IsRecord (p.dropRecord i d) j → IsRecord p j ∧ j ≠ i ∧
      (p.dropRecord i d).mapEntries j = p.mapEntries j := by
    intro j hj
    obtain ⟨hj, hne⟩ := (isRecord_drop d j).mp hj
    exact ⟨hj, hne, by rw [Proc.dropRecord_entry, if_neg hne]⟩
  refine ⟨⟨.ofPte fun x => if (p.mapEntries i).Covers x then none else e.pte x, he.remove hi fun x => ?_⟩,
    fun j hj x hx => ?_, fun j hj hgrows => ?_⟩
  · show (if (p.mapEntries i).Covers x then none else e.pte x).isSome = true ↔ (e.pte x).isSome ∧ _
    split
    · rename_i hx
      exact iff_of_false Bool.false_ne_true fun hand => hand.2 hx
    · rename_i hx
      exact (and_iff_left hx).symm
  · obtain ⟨hj, hne, hentry⟩ := hold j hj
    rw [hentry] at hx
    exact hkept x (fun hx' => hne (he.agree.apart j i x hj hi hx hx')) (h.present j hj x hx)
  · obtain ⟨hj, -, hentry⟩ := hold j hj
    rw [hentry] at hgrows ⊢
    refine Option.not_isSome_iff_eq_none.mp fun hsome => ?_
    have hwas := hgone _ hsome
    rw [h.guard j hj hgrows] at hwas
    cases hwas

/-- **A mapping that grows.** -/
theorem Settled.grow (h : Settled p) (hi : IsRecord p i) (hgrows : (p.mapEntries i).growsUp = true)
    (hfree : FreeAt p ((p.mapEntries i).next + 1)) (pa : ℕ)
    (hpte : ∀ x, d.pte x = if x = (p.mapEntries i).next then some pa else p.pgdir.pte x) :
    Settled (p.grow i d) := by
  obtain ⟨e, he⟩ := h.records
  obtain ⟨-, hlt, -⟩ := he.agree.guard i hi hgrows
  obtain ⟨hlt', hnone⟩ := FreeAt.lt hlt hfree
  have hfree' : FreeAt { p with pgdir := e } ((p.mapEntries i).next + 1) :=
    h.free he (hi.lo.trans (Nat.le_succ _)) hlt' hfree
  refine ⟨⟨.ofPte fun x => if x = (p.mapEntries i).next then some pa else e.pte x,
    he.grow hi hgrows hfree' pa fun _ => rfl⟩, fun j hj x hx => ?_, fun j hj hgrows' => ?_⟩
  · rw [isRecord_grow] at hj
    rw [Proc.grow_entry] at hx
    show (d.pte x).isSome = true
    rw [hpte]
    split
    · rfl
    · rename_i hne
      split at hx
      · have hlt'' : x < (p.mapEntries i).next + 1 := hx.2
        exact h.present i hi x ⟨hx.1, by omega⟩
      · exact h.present j hj x hx
  · rw [isRecord_grow] at hj
    rw [Proc.grow_entry] at hgrows' ⊢
    show d.pte _ = none
    split
    · show d.pte ((p.mapEntries i).next + 1) = none
      rw [hpte, if_neg (by omega)]
      exact hnone
    · rename_i hne
      rw [if_neg hne] at hgrows'
      rw [hpte, if_neg fun hnext => hne (he.agree.guards j i hj hi hgrows' hgrows hnext)]
      exact h.guard j hj hgrows'

end OperatingSystems.Vm
