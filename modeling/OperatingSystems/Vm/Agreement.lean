import Mathlib
import OperatingSystems.Vm.Growth

/-!
# The calls and the agreement of records and page table

Each call changes the records and the page table of a process together.

* **`Accord`** — records and page table agree, with room for more records.
* **`Agree.transfer`** — two processes with the same records and the same present pages.
* **`Accord.add`**, **`Accord.remove`**, **`Accord.grow`** — a new mapping, one that is given up with all its
  pages, and one that grows.
-/

namespace OperatingSystems.Vm

variable {p p' : Proc} {d : PgDir} {a : MmapArgs} {va n i : ℕ}

/-- **Records and page table agree**, every record has a page and says whether it is private or shared, and no
record lies behind the index. -/
structure Accord (p : Proc) : Prop where
  agree : Agree p
  index : p.currentMappingIndex < NMAP
  behind : ∀ i < NMAP, p.currentMappingIndex ≤ i → (p.mapEntries i).inUse = false
  pages : ∀ i, IsRecord p i → 0 < (p.mapEntries i).numPages
  kinds : ∀ i, IsRecord p i → has (p.mapEntries i).flags MAP_PRIVATE = true ∨
    has (p.mapEntries i).flags MAP_SHARED = true

/-- The records of `p'` are those of `p`, at other places: `f` says where. -/
structure SameRecords (p p' : Proc) (f : ℕ → ℕ) : Prop where
  below : ∀ i, IsRecord p' i → i < NMAP
  into : ∀ i, IsRecord p' i → IsRecord p (f i) ∧ p'.mapEntries i = p.mapEntries (f i)
  onto : ∀ j, IsRecord p j → ∃ i, IsRecord p' i ∧ p'.mapEntries i = p.mapEntries j
  once : ∀ i j, IsRecord p' i → IsRecord p' j → f i = f j → i = j

/-- **The same records and the same present pages.** -/
theorem Agree.transfer {f : ℕ → ℕ} (h : Agree p) (hsame : SameRecords p p' f)
    (hpte : ∀ x, MMAPBASE ≤ x → x < KERNBASE → ((p'.pgdir.pte x).isSome ↔ (p.pgdir.pte x).isSome)) :
    Agree p' := by
  constructor
  case index => exact hsame.below
  case within =>
    intro i hi
    obtain ⟨hi', he⟩ := hsame.into i hi
    rw [he]
    exact h.within _ hi'
  case present =>
    intro x hlo hhi
    rw [hpte x hlo hhi, h.present x hlo hhi]
    constructor
    · rintro ⟨j, hj, hx⟩
      obtain ⟨i, hi, he⟩ := hsame.onto j hj
      exact ⟨i, hi, he ▸ hx⟩
    · rintro ⟨i, hi, hx⟩
      obtain ⟨hi', he⟩ := hsame.into i hi
      exact ⟨_, hi', he ▸ hx⟩
  case apart =>
    intro i j x hi hj hx hx'
    obtain ⟨hi', he⟩ := hsame.into i hi
    obtain ⟨hj', he'⟩ := hsame.into j hj
    rw [he] at hx
    rw [he'] at hx'
    exact hsame.once i j hi hj (h.apart _ _ x hi' hj' hx hx')
  case guard =>
    intro i hi hgrows
    obtain ⟨hi', he⟩ := hsame.into i hi
    rw [he] at hgrows ⊢
    obtain ⟨hguard, hlt, hnone⟩ := h.guard _ hi' hgrows
    refine ⟨hguard, hlt, ?_⟩
    have hiff := hpte _ hi'.lo hlt
    rw [hnone] at hiff
    exact Option.not_isSome_iff_eq_none.mp fun hsome => absurd (hiff.mp hsome) (by decide)
  case guards =>
    intro i j hi hj hgrows hgrows' hnext
    obtain ⟨hi', he⟩ := hsame.into i hi
    obtain ⟨hj', he'⟩ := hsame.into j hj
    rw [he] at hgrows hnext
    rw [he'] at hgrows' hnext
    exact hsame.once i j hi hj (h.guards _ _ hi' hj' hgrows hgrows' hnext)
  case unguarded =>
    intro i hi hgrows
    obtain ⟨hi', he⟩ := hsame.into i hi
    rw [he] at hgrows ⊢
    exact h.unguarded _ hi' hgrows

theorem Accord.transfer {f : ℕ → ℕ} (h : Accord p) (hsame : SameRecords p p' f)
    (hpte : ∀ x, MMAPBASE ≤ x → x < KERNBASE → ((p'.pgdir.pte x).isSome ↔ (p.pgdir.pte x).isSome))
    (hindex : p'.currentMappingIndex < NMAP)
    (hbehind : ∀ i < NMAP, p'.currentMappingIndex ≤ i → (p'.mapEntries i).inUse = false) : Accord p' := by
  refine ⟨h.agree.transfer hsame hpte, hindex, hbehind, fun i hi => ?_, fun i hi => ?_⟩
  · obtain ⟨hi', he⟩ := hsame.into i hi
    rw [he]
    exact h.pages _ hi'
  · obtain ⟨hi', he⟩ := hsame.into i hi
    rw [he]
    exact h.kinds _ hi'

theorem sameRecords_of_eq (h : ∀ i, IsRecord p i → i < NMAP) (hentries : p'.mapEntries = p.mapEntries)
    (hindex : p'.currentMappingIndex = p.currentMappingIndex) : SameRecords p p' id := by
  have hrecord : ∀ i, IsRecord p' i ↔ IsRecord p i := by
    intro i
    unfold IsRecord
    rw [hentries, hindex]
  refine ⟨fun i hi => h i ((hrecord i).mp hi), fun i hi => ⟨(hrecord i).mp hi, by rw [hentries]; rfl⟩,
    fun j hj => ⟨j, (hrecord j).mpr hj, by rw [hentries]⟩, fun i j _ _ he => he⟩

/-- Nothing that records and page table say has changed. -/
theorem Accord.congr (h : Accord p) (hentries : p'.mapEntries = p.mapEntries)
    (hindex : p'.currentMappingIndex = p.currentMappingIndex)
    (hpte : ∀ x, MMAPBASE ≤ x → x < KERNBASE → p'.pgdir.pte x = p.pgdir.pte x) : Accord p' := by
  refine h.transfer (sameRecords_of_eq h.agree.index hentries hindex) (fun x hlo hhi => by rw [hpte x hlo hhi])
    (hindex ▸ h.index) ?_
  rw [hentries, hindex]
  exact h.behind

/-- A process without records that maps nothing. -/
theorem accord_of_none (hno : ∀ i, ¬IsRecord p i)
    (hnone : ∀ x, MMAPBASE ≤ x → x < KERNBASE → p.pgdir.pte x = none)
    (hindex : p.currentMappingIndex < NMAP)
    (hbehind : ∀ i < NMAP, p.currentMappingIndex ≤ i → (p.mapEntries i).inUse = false) : Accord p := by
  refine ⟨⟨fun i hi => absurd hi (hno i), fun i hi => absurd hi (hno i), fun x hlo hhi => ?_,
    fun i j x hi => absurd hi (hno i), fun i hi => absurd hi (hno i), fun i j hi => absurd hi (hno i),
    fun i hi => absurd hi (hno i)⟩, hindex, hbehind, fun i hi => absurd hi (hno i),
    fun i hi => absurd hi (hno i)⟩
  rw [hnone x hlo hhi]
  exact iff_of_false Bool.false_ne_true fun hcovers => hno _ hcovers.choose_spec.1

/-- A record lies below the index. -/
theorem Accord.lt (h : Accord p) (hi : IsRecord p i) : i < p.currentMappingIndex := by
  by_contra hle
  have hnot := h.behind i (h.agree.index i hi) (not_lt.mp hle)
  rw [hi.2] at hnot
  cases hnot

theorem Accord.isRecord (h : Accord p) (hi : i < NMAP) (hu : (p.mapEntries i).inUse = true) : IsRecord p i := by
  refine ⟨?_, hu⟩
  by_contra hgt
  rw [h.behind i hi (by omega)] at hu
  cases hu

/-- A mapping is found under its address. -/
theorem Accord.found (h : Accord p) (hi : IsRecord p i) :
    findmappingmetadata p (p.mapEntries i).startingVirtualAddress = some i := by
  obtain ⟨hvalid, hlo, hhi⟩ := inUse_iff.mp hi.2
  refine findmappingmetadata_eq (h.agree.index i hi) hvalid rfl fun j hj hv hs => ?_
  have hj' : IsRecord p j := h.isRecord hj (inUse_iff.mpr ⟨hv, hs ▸ hlo, hs ▸ hhi⟩)
  have hcovers : ∀ l, IsRecord p l → (p.mapEntries l).Covers (p.mapEntries l).startingVirtualAddress :=
    fun l hl => ⟨le_refl _, Nat.lt_add_of_pos_right (h.pages l hl)⟩
  exact h.agree.apart j i _ hj' hi (hs ▸ hcovers j hj') (hcovers i hi)

/-! ### A new mapping -/

theorem FreeAt.next_ne (hfree : FreeAt p va) (h : Agree p) (hi : IsRecord p i)
    (hgrows : (p.mapEntries i).growsUp = true) : (p.mapEntries i).next ≠ va := by
  rw [← (h.guard i hi hgrows).1]
  exact hfree.not_guard hi

/-- The process with one record more. -/
def Proc.addRecord (p : Proc) (d : PgDir) (m : MapEntry) : Proc :=
  { p with
    pgdir := d
    mapEntries := Function.update p.mapEntries p.currentMappingIndex m
    currentMappingIndex := p.currentMappingIndex + 1 }

theorem Proc.addRecord_entry (p : Proc) (d : PgDir) (m : MapEntry) (j : ℕ) :
    (p.addRecord d m).mapEntries j = if j = p.currentMappingIndex then m else p.mapEntries j := by
  show Function.update p.mapEntries p.currentMappingIndex m j = _
  rw [Function.update_apply]

/-- The records are the old ones and the new one. -/
theorem Accord.isRecord_add (h : Accord p) (hroom : p.currentMappingIndex + 1 < NMAP) {m : MapEntry}
    (huse : m.inUse = true) (j : ℕ) :
    IsRecord (p.addRecord d m) j ↔ IsRecord p j ∨ j = p.currentMappingIndex := by
  unfold IsRecord
  rw [Proc.addRecord_entry]
  show j ≤ p.currentMappingIndex + 1 ∧ _ ↔ _
  by_cases hj : j = p.currentMappingIndex
  · rw [if_pos hj]
    exact iff_of_true ⟨by omega, huse⟩ (.inr hj)
  · rw [if_neg hj, or_iff_left hj]
    constructor
    · rintro ⟨hle, hu⟩
      refine ⟨?_, hu⟩
      by_contra hgt
      rw [h.behind j (by omega) (by omega)] at hu
      cases hu
    · rintro ⟨hle, hu⟩
      exact ⟨by omega, hu⟩

/-- The pages of the mapping `m` and its guard page are free. -/
structure Fits (p : Proc) (m : MapEntry) : Prop where
  use : m.inUse = true
  pages : 0 < m.numPages
  ends : m.next ≤ KERNBASE
  free : ∀ x, m.Covers x → FreeAt p x
  guard : m.growsUp = true → m.guardPageVirtualAddress = m.next ∧ m.next < KERNBASE ∧ FreeAt p m.next
  unguarded : m.growsUp = false → m.guardPageVirtualAddress = 0
  kind : has m.flags MAP_PRIVATE = true ∨ has m.flags MAP_SHARED = true

theorem FreeAt.pte (hfree : FreeAt p va) (hva : va < KERNBASE) : p.pgdir.pte va = none := by
  have hnot := hfree.2
  rwa [present_of_lt hva, Option.isSome_eq_false_iff, Option.isNone_iff_eq_none] at hnot

theorem MmapArgs.kind (h : a.valid = true) :
    has a.flags MAP_PRIVATE = true ∨ has a.flags MAP_SHARED = true := by
  unfold MmapArgs.valid at h
  simp only [Bool.and_eq_true, Bool.or_eq_true] at h
  exact h.1.1.1.2.symm

/-- The pages that `mmap` has found are free. -/
theorem Placed.free {k : Kernel} {c : Slot} (h : Placed k c a va) {x : ℕ} (hlo : va ≤ x)
    (hhi : x < va + a.pages) : FreeAt (k.proc c) x := by
  obtain ⟨-, -, hfree⟩ := placeMapping_some h.place
  have hat := canallocatva_iff.mp hfree (x - va) (by omega)
  rwa [Nat.add_sub_cancel' hlo] at hat

/-- What `mmap` finds a place for. -/
theorem Placed.fits {k : Kernel} {c : Slot} (h : Placed k c a va) (hpos : 0 < a.pages) :
    Fits (k.proc c) (a.entry va a.pages) := by
  obtain ⟨hlo, hhi, hfree⟩ := placeMapping_some h.place
  have hends : va + a.pages ≤ KERNBASE := canallocatva_le hfree hhi.le
  refine ⟨inUse_iff.mpr ⟨rfl, hlo, hhi⟩, hpos, hends, fun x hx => h.free hx.1 hx.2, fun hgrows => ?_,
    fun hgrows => if_neg ?_, MmapArgs.kind h.valid⟩
  · have hguard := guardOk_iff.mp h.guard hgrows
    refine ⟨if_pos hgrows, ?_, hguard⟩
    refine lt_of_le_of_ne hends fun hend => ?_
    have hnot := hguard.2
    rw [show va + a.pages = KERNBASE from hend, present_KERNBASE] at hnot
    cases hnot
  · exact Bool.eq_false_iff.mp hgrows

/-- **A new mapping keeps the agreement.** -/
theorem Accord.add {m : MapEntry} (h : Accord p) (hm : Fits p m) (hroom : p.currentMappingIndex + 1 < NMAP)
    (hpte : ∀ x, (d.pte x).isSome ↔ m.Covers x ∨ (p.pgdir.pte x).isSome) : Accord (p.addRecord d m) := by
  have hrecord := h.isRecord_add (d := d) hroom hm.use
  have hnew : (p.addRecord d m).mapEntries p.currentMappingIndex = m := by
    rw [Proc.addRecord_entry, if_pos rfl]
  have hold : ∀ j, IsRecord p j → (p.addRecord d m).mapEntries j = p.mapEntries j := by
    intro j hj
    rw [Proc.addRecord_entry, if_neg (h.lt hj).ne]
  have hlo := (inUse_iff.mp hm.use).2.1
  have hcovered : ∀ x, m.Covers x → p.pgdir.pte x = none := by
    intro x hx
    exact (hm.free x hx).pte (hx.2.trans_le hm.ends)
  -- what the new mapping covers, no other one does
  have hapart : ∀ j x, IsRecord p j → (p.mapEntries j).Covers x → ¬m.Covers x := by
    intro j x hj hx hx'
    have hpresent := (h.agree.present x (hlo.trans hx'.1) (hx'.2.trans_le hm.ends)).mpr ⟨j, hj, hx⟩
    rw [hcovered x hx'] at hpresent
    cases hpresent
  -- a page that was not present and is not covered is not present
  have hnone : ∀ x, p.pgdir.pte x = none → ¬m.Covers x → d.pte x = none := by
    intro x hx hnot
    refine Option.not_isSome_iff_eq_none.mp fun hsome => ?_
    rcases (hpte x).mp hsome with hcovers | hwas
    · exact hnot hcovers
    · rw [hx] at hwas
      cases hwas
  refine ⟨?_, hroom, fun j hj hle => ?_, fun j hj => ?_, fun j hj => ?_⟩
  · constructor
    case index =>
      intro j hj
      rcases (hrecord j).mp hj with hj | rfl
      · exact h.agree.index j hj
      · exact h.index
    case within =>
      intro j hj
      rcases (hrecord j).mp hj with hj | rfl
      · rw [hold j hj]
        exact h.agree.within j hj
      · rw [hnew]
        exact hm.ends
    case present =>
      intro x hxlo hxhi
      show (d.pte x).isSome ↔ _
      rw [hpte, h.agree.present x hxlo hxhi]
      constructor
      · rintro (hx | ⟨j, hj, hx⟩)
        · refine ⟨_, (hrecord _).mpr (.inr rfl), ?_⟩
          rw [hnew]
          exact hx
        · exact ⟨j, (hrecord j).mpr (.inl hj), hold j hj ▸ hx⟩
      · rintro ⟨j, hj, hx⟩
        rcases (hrecord j).mp hj with hj | rfl
        · rw [hold j hj] at hx
          exact .inr ⟨j, hj, hx⟩
        · rw [hnew] at hx
          exact .inl hx
    case apart =>
      intro i j x hi hj hx hx'
      rcases (hrecord i).mp hi with hi | rfl
      · rw [hold i hi] at hx
        rcases (hrecord j).mp hj with hj | rfl
        · rw [hold j hj] at hx'
          exact h.agree.apart i j x hi hj hx hx'
        · rw [hnew] at hx'
          exact absurd hx' (hapart i x hi hx)
      · rw [hnew] at hx
        rcases (hrecord j).mp hj with hj | rfl
        · rw [hold j hj] at hx'
          exact absurd hx (hapart j x hj hx')
        · rfl
    case guard =>
      intro j hj hgrows
      rcases (hrecord j).mp hj with hj | rfl
      · rw [hold j hj] at hgrows ⊢
        obtain ⟨hguard, hlt, hfree⟩ := h.agree.guard j hj hgrows
        refine ⟨hguard, hlt, hnone _ hfree fun hx => ?_⟩
        exact (hm.free _ hx).next_ne h.agree hj hgrows rfl
      · rw [hnew] at hgrows ⊢
        obtain ⟨hguard, hlt, hfree⟩ := hm.guard hgrows
        exact ⟨hguard, hlt, hnone _ (hfree.pte hlt) fun hx => lt_irrefl _ hx.2⟩
    case guards =>
      intro i j hi hj hgrows hgrows' hnext
      rcases (hrecord i).mp hi with hi | rfl
      · rw [hold i hi] at hgrows hnext
        rcases (hrecord j).mp hj with hj | rfl
        · rw [hold j hj] at hgrows' hnext
          exact h.agree.guards i j hi hj hgrows hgrows' hnext
        · rw [hnew] at hgrows' hnext
          exact absurd hnext ((hm.guard hgrows').2.2.next_ne h.agree hi hgrows)
      · rw [hnew] at hgrows hnext
        rcases (hrecord j).mp hj with hj | rfl
        · rw [hold j hj] at hgrows' hnext
          exact absurd hnext.symm ((hm.guard hgrows).2.2.next_ne h.agree hj hgrows')
        · rfl
    case unguarded =>
      intro j hj hgrows
      rcases (hrecord j).mp hj with hj | rfl
      · rw [hold j hj] at hgrows ⊢
        exact h.agree.unguarded j hj hgrows
      · rw [hnew] at hgrows ⊢
        exact hm.unguarded hgrows
  · change p.currentMappingIndex + 1 ≤ j at hle
    rw [Proc.addRecord_entry, if_neg (by omega)]
    exact h.behind j hj (by omega)
  · rcases (hrecord j).mp hj with hj | rfl
    · rw [hold j hj]
      exact h.pages j hj
    · rw [hnew]
      exact hm.pages
  · rcases (hrecord j).mp hj with hj | rfl
    · rw [hold j hj]
      exact h.kinds j hj
    · rw [hnew]
      exact hm.kind

/-! ### A mapping is given up -/

/-- The process without the record `i`. -/
def Proc.dropRecord (p : Proc) (i : ℕ) (d : PgDir) : Proc :=
  { p with pgdir := d, mapEntries := Function.update p.mapEntries i .unused }

theorem Proc.dropRecord_entry (p : Proc) (i j : ℕ) (d : PgDir) :
    (p.dropRecord i d).mapEntries j = if j = i then .unused else p.mapEntries j := by
  show Function.update p.mapEntries i _ j = _
  rw [Function.update_apply]

theorem isRecord_drop (d : PgDir) (j : ℕ) : IsRecord (p.dropRecord i d) j ↔ IsRecord p j ∧ j ≠ i := by
  unfold IsRecord
  rw [Proc.dropRecord_entry]
  show j ≤ p.currentMappingIndex ∧ _ ↔ _
  by_cases hj : j = i
  · rw [if_pos hj]
    exact iff_of_false (fun hu => by cases hu.2) fun hne => hne.2 hj
  · rw [if_neg hj, and_iff_left hj]

/-- **A mapping that is given up with all its pages keeps the agreement.** -/
theorem Accord.remove (h : Accord p) (hi : IsRecord p i)
    (hpte : ∀ x, (d.pte x).isSome ↔ (p.pgdir.pte x).isSome ∧ ¬(p.mapEntries i).Covers x) :
    Accord (p.dropRecord i d) := by
  have hold : ∀ j, j ≠ i → (p.dropRecord i d).mapEntries j = p.mapEntries j := by
    intro j hj
    rw [Proc.dropRecord_entry, if_neg hj]
  refine ⟨?_, h.index, fun j hj hle => ?_, fun j hj => ?_, fun j hj => ?_⟩
  · constructor
    case index =>
      intro j hj
      exact h.agree.index j ((isRecord_drop d j).mp hj).1
    case within =>
      intro j hj
      obtain ⟨hj, hne⟩ := (isRecord_drop d j).mp hj
      rw [hold j hne]
      exact h.agree.within j hj
    case present =>
      intro x hxlo hxhi
      show (d.pte x).isSome ↔ _
      rw [hpte, h.agree.present x hxlo hxhi]
      constructor
      · rintro ⟨⟨j, hj, hx⟩, hnot⟩
        have hne : j ≠ i := by
          rintro rfl
          exact hnot hx
        exact ⟨j, (isRecord_drop d j).mpr ⟨hj, hne⟩, hold j hne ▸ hx⟩
      · rintro ⟨j, hj, hx⟩
        obtain ⟨hj, hne⟩ := (isRecord_drop d j).mp hj
        rw [hold j hne] at hx
        exact ⟨⟨j, hj, hx⟩, fun hx' => hne (h.agree.apart j i x hj hi hx hx')⟩
    case apart =>
      intro j l x hj hl hx hx'
      obtain ⟨hj, hnej⟩ := (isRecord_drop d j).mp hj
      obtain ⟨hl, hnel⟩ := (isRecord_drop d l).mp hl
      rw [hold j hnej] at hx
      rw [hold l hnel] at hx'
      exact h.agree.apart j l x hj hl hx hx'
    case guard =>
      intro j hj hgrows
      obtain ⟨hj, hne⟩ := (isRecord_drop d j).mp hj
      rw [hold j hne] at hgrows ⊢
      obtain ⟨hguard, hlt, hnone⟩ := h.agree.guard j hj hgrows
      refine ⟨hguard, hlt, Option.not_isSome_iff_eq_none.mp fun hsome => ?_⟩
      have hwas := ((hpte _).mp hsome).1
      rw [hnone] at hwas
      cases hwas
    case guards =>
      intro j l hj hl hgrows hgrows' hnext
      obtain ⟨hj, hnej⟩ := (isRecord_drop d j).mp hj
      obtain ⟨hl, hnel⟩ := (isRecord_drop d l).mp hl
      rw [hold j hnej] at hgrows hnext
      rw [hold l hnel] at hgrows' hnext
      exact h.agree.guards j l hj hl hgrows hgrows' hnext
    case unguarded =>
      intro j hj hgrows
      obtain ⟨hj, hne⟩ := (isRecord_drop d j).mp hj
      rw [hold j hne] at hgrows ⊢
      exact h.agree.unguarded j hj hgrows
  · rw [Proc.dropRecord_entry]
    split
    · rfl
    · exact h.behind j hj hle
  · obtain ⟨hj, hne⟩ := (isRecord_drop d j).mp hj
    rw [hold j hne]
    exact h.pages j hj
  · obtain ⟨hj, hne⟩ := (isRecord_drop d j).mp hj
    rw [hold j hne]
    exact h.kinds j hj

/-! ### A mapping grows -/

/-- **A mapping that grows keeps the agreement.** -/
theorem Accord.grow (h : Accord p) (hi : IsRecord p i) (hgrows : (p.mapEntries i).growsUp = true)
    (hfree : FreeAt p ((p.mapEntries i).next + 1)) (pa : ℕ)
    (hpte : ∀ x, d.pte x = if x = (p.mapEntries i).next then some pa else p.pgdir.pte x) :
    Accord (p.grow i d) := by
  have hflags : ∀ j, ((p.grow i d).mapEntries j).flags = (p.mapEntries j).flags := by
    intro j
    rw [Proc.grow_entry]
    split
    · rename_i hj
      rw [hj]
      rfl
    · rfl
  refine ⟨h.agree.grow hi hgrows hfree hpte, h.index, fun j hj hle => ?_, fun j hj => ?_, fun j hj => ?_⟩
  · rw [Proc.grow_entry, if_neg]
    · exact h.behind j hj hle
    · rintro rfl
      exact absurd (h.lt hi) (not_lt.mpr hle)
  · rw [isRecord_grow] at hj
    rw [Proc.grow_entry]
    split
    · exact Nat.succ_pos _
    · exact h.pages j hj
  · rw [isRecord_grow] at hj
    rw [hflags]
    exact h.kinds j hj

end OperatingSystems.Vm
