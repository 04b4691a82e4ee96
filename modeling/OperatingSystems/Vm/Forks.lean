import Mathlib
import OperatingSystems.Vm.Lifecycle

/-!
# What `fork` does with the mappings

A shared mapping of the parent is mapped by the child too, page for page.  For a private one there are new
pages, and the parent maps each of them for a moment, in a window, to fill it.

* **`Forking`** — the state while `fork` copies: a page that both map lies at the same place in both.
* **`Forking.copyPrivate`**, **`Forking.copyShared`**, **`Forking.copyEntries`** — the loops keep it.
* **`Sound.fork`** — no page has two owners after a `fork`, whether or not the copy was completed.
-/

namespace OperatingSystems.Vm

open Outcomes Custody

variable {k k' : Kernel} {c parent child : Slot} {d : PgDir} {va temp n : ℕ} {hand hand' : Multiset ℕ}
  {fl : List ℕ} {W W' : Set ℕ} {m : MapEntry}

/-! ### The state while the mappings are copied -/

/-- **While `fork` copies.**  A page that both processes map has one place, but for the window `W` of the
parent. -/
structure Forking (hand : Multiset ℕ) (parent child : Slot) (W : Set ℕ) (k : Kernel) : Prop where
  sound : Sound hand k
  parentLive : (k.proc parent).Live
  childLive : (k.proc child).Live
  ne : child ≠ parent
  lineage : ∀ va va' x, MMAPBASE ≤ va → va < KERNBASE → MMAPBASE ≤ va' → va' < KERNBASE →
    (k.proc child).pgdir.pte va = some x → (k.proc parent).pgdir.pte va' = some x → k.Freeable x →
    va' = va ∨ va' ∈ W

theorem Forking.congr (h : Forking hand parent child W k) (hsound : Sound hand' k')
    (hproc : ∀ q, (k'.proc q).state = (k.proc q).state ∧ (k'.proc q).pgdir = (k.proc q).pgdir)
    (hend : k'.kernelEnd = k.kernelEnd) : Forking hand' parent child W k' := by
  have hfree : k'.Freeable = k.Freeable := by
    funext x
    unfold Kernel.Freeable
    rw [hend]
  refine ⟨hsound, ?_, ?_, h.ne, ?_⟩
  · unfold Proc.Live
    rw [(hproc parent).1]
    exact h.parentLive
  · unfold Proc.Live
    rw [(hproc child).1]
    exact h.childLive
  · rw [hfree, (hproc child).2, (hproc parent).2]
    exact h.lineage

/-- Pages in the hand are dropped. -/
theorem Forking.drop (h : Forking (hand' + hand) parent child W k) : Forking hand parent child W k :=
  h.congr (h.sound.move rfl rfl (add_le_add_left (Multiset.le_add_left ..) _))
    (fun _ => ⟨rfl, rfl⟩) rfl

/-- A page in the hand is mapped in no place. -/
theorem Sound.hand_pte {x : ℕ} {q : Slot} (h : Sound hand k) (hx : x ∈ hand)
    (huse : (k.proc q).state ≠ .UNUSED) (hlo : MMAPBASE ≤ va) (hhi : va < KERNBASE) :
    (k.proc q).pgdir.pte va ≠ some x := by
  intro hpte
  exact h.not_mapped (mem_kept_hand hx) ⟨q, huse, mem_mapped_of_pte hlo hhi hpte⟩

/-- The child maps a page. -/
theorem Forking.mapChild {x : ℕ} (h : Forking hand parent child W k)
    (hm : Mapped (k.proc child).pgdir d va [x] k.freelist fl)
    (hsound : Sound hand' (k.withDir child d fl k.mem))
    (hx : ∀ va', MMAPBASE ≤ va' → va' < KERNBASE → (k.proc parent).pgdir.pte va' = some x →
      k.Freeable x → va' = va) :
    Forking hand' parent child W (k.withDir child d fl k.mem) := by
  have hparent := Kernel.withDir_proc_of_ne k child d fl k.mem h.ne.symm
  have hchild := Kernel.withDir_self_proc k child d fl k.mem
  refine ⟨hsound, ?_, (live_withDir ..).mpr h.childLive, h.ne, ?_⟩
  · rw [hparent]
    exact h.parentLive
  · intro v v' y hlo hhi hlo' hhi' hpte hpte' hfree
    rw [hchild] at hpte
    rw [hparent] at hpte'
    dsimp only at hpte
    rw [hm.pte, List.length_singleton] at hpte
    split at hpte
    · rename_i hin
      have hv : v = va := by omega
      rw [hv, Nat.sub_self] at hpte
      cases hpte
      exact .inl ((hx v' hlo' hhi' hpte' hfree).trans hv.symm)
    · exact h.lineage v v' y hlo hhi hlo' hhi' hpte hpte' hfree

/-- The parent maps a page, in the window or one that the child does not map. -/
theorem Forking.mapParent {x : ℕ} (h : Forking hand parent child W k)
    (hm : Mapped (k.proc parent).pgdir d va [x] k.freelist fl)
    (hsound : Sound hand' (k.withDir parent d fl k.mem)) (hW : W ⊆ W')
    (hx : va ∈ W' ∨ ∀ v, MMAPBASE ≤ v → v < KERNBASE → (k.proc child).pgdir.pte v = some x →
      ¬k.Freeable x) :
    Forking hand' parent child W' (k.withDir parent d fl k.mem) := by
  have hchild := Kernel.withDir_proc_of_ne k parent d fl k.mem h.ne
  have hparent := Kernel.withDir_self_proc k parent d fl k.mem
  refine ⟨hsound, (live_withDir ..).mpr h.parentLive, ?_, h.ne, ?_⟩
  · rw [hchild]
    exact h.childLive
  · intro v v' y hlo hhi hlo' hhi' hpte hpte' hfree
    rw [hchild] at hpte
    rw [hparent] at hpte'
    dsimp only at hpte'
    rw [hm.pte, List.length_singleton] at hpte'
    split at hpte'
    · rename_i hin
      have hv : v' = va := by omega
      rw [hv, Nat.sub_self] at hpte'
      cases hpte'
      rcases hx with hwindow | hnot
      · exact .inr (hv ▸ hwindow)
      · exact absurd hfree (hnot v hlo hhi hpte)
    · exact (h.lineage v v' y hlo hhi hlo' hhi' hpte hpte' hfree).imp_right fun hw => hW hw

/-! ### The window -/

theorem Forking.grow (h : Forking hand parent child W k) {b : Bool}
    (hrun : cangrowup parent va k = .ok (k', b)) : Forking hand parent child W k' := by
  have hsound := h.sound.grow h.parentLive hrun
  obtain ⟨-, rfl⟩ | ⟨i, -, hinto, pa, fl, htakes, hcase⟩ := cangrowup_ok hrun
  · exact h
  · rcases hcase with ⟨-, -, rfl⟩ | ⟨-, -, -, -, d, fl', hm, rfl⟩
    · refine h.congr hsound (fun q => ?_) rfl
      unfold Kernel.withDir
      rw [Function.update_eq_self]
      exact ⟨rfl, rfl⟩
    · -- the page comes off the free list, so the child does not map it
      have hpa : ∀ v, MMAPBASE ≤ v → v < KERNBASE → (k.proc child).pgdir.pte v = some pa →
          ¬k.Freeable pa := by
        intro v hlo hhi hpte hfree
        rcases htakes with hcons | ⟨-, rfl, -⟩
        · refine h.sound.not_mapped (mem_kept_free ?_)
            ⟨child, h.childLive.1, mem_mapped_of_pte hlo hhi hpte⟩
          rw [hcons]
          exact List.mem_cons_self
        · exact nullPage_not_freeable hfree
      have hbase : Forking hand parent child W { k with freelist := fl } := by
        refine h.congr (h.sound.move rfl rfl ?_) (fun _ => ⟨rfl, rfl⟩) rfl
        rcases htakes with hcons | ⟨hnil, -, rfl⟩
        · rw [hcons, ← Multiset.cons_coe]
          exact add_le_add_right (Multiset.le_cons_self ..) _
        · rw [hnil]
      have hproc : ∀ q, (((k.withDir parent d fl' k.mem).withEntry parent i
          ((k.proc parent).mapEntries i).grown).proc q).state =
            ((k.withDir parent d fl' k.mem).proc q).state ∧
          (((k.withDir parent d fl' k.mem).withEntry parent i
            ((k.proc parent).mapEntries i).grown).proc q).pgdir =
            ((k.withDir parent d fl' k.mem).proc q).pgdir := by
        intro q
        unfold Kernel.withEntry
        by_cases hq : q = parent
        · rw [hq, Kernel.modify_self]
          exact ⟨rfl, rfl⟩
        · rw [Kernel.modify_of_ne _ hq]
          exact ⟨rfl, rfl⟩
      have hdir : Sound hand (k.withDir parent d fl' k.mem) := by
        refine (hsound.withEntry (c := parent) (i := i) (m := (k.proc parent).mapEntries i)
          fun _ => (inUse_iff.mp (growsInto_iff.mp hinto).1).2.2).congr (fun q => ?_) rfl rfl
        unfold Kernel.withEntry
        by_cases hq : q = parent
        · rw [hq, Kernel.modify_self, Kernel.modify_self, Kernel.withDir_self_proc]
          dsimp only
          rw [Function.update_idem, Function.update_eq_self]
          exact ⟨rfl, rfl, rfl, rfl, rfl⟩
        · rw [Kernel.modify_of_ne _ hq, Kernel.modify_of_ne _ hq]
          exact ⟨rfl, rfl, rfl, rfl, rfl⟩
      have hmapped : Forking hand parent child W (k.withDir parent d fl' k.mem) :=
        hbase.mapParent (k := { k with freelist := fl }) hm hdir (le_refl _) (.inr hpa)
      exact hmapped.congr hsound hproc rfl

theorem Forking.copyPage (h : Forking hand parent child W k)
    (hrun : copyPage parent va temp k = .ok k') : Forking hand parent child W k' := by
  have hgrow : GrowthKeeps parent (fun _ => True) (Forking hand parent child W) :=
    fun _ _ _ _ hgrown hk => hk.grow hgrown
  obtain ⟨⟨k₁, bytes⟩, h₁, h₂⟩ := bind_eq_ok hrun
  refine storeBytes_keeps hgrow (fun k mem hk => ?_) (fun _ _ => trivial) h₂
    (loadBytes_keeps hgrow (fun _ _ => trivial) h₁ h)
  exact hk.congr (hk.sound.same rfl rfl rfl) (fun _ => ⟨rfl, rfl⟩) rfl

/-- The window is closed. -/
theorem Forking.close (h : Forking hand parent child {temp} k) :
    Forking hand parent child ∅
      (k.withDir parent ((k.proc parent).pgdir.clear temp) k.freelist k.mem) := by
  have hchild := Kernel.withDir_proc_of_ne k parent ((k.proc parent).pgdir.clear temp) k.freelist k.mem h.ne
  have hparent := Kernel.withDir_self_proc k parent ((k.proc parent).pgdir.clear temp) k.freelist k.mem
  refine ⟨h.sound.clear h.parentLive temp, (live_withDir ..).mpr h.parentLive, ?_, h.ne, ?_⟩
  · rw [hchild]
    exact h.childLive
  · intro v v' y hlo hhi hlo' hhi' hpte hpte' hfree
    rw [hchild] at hpte
    rw [hparent] at hpte'
    obtain ⟨hne, hpte'⟩ := clear_pte_some hpte'
    rcases h.lineage v v' y hlo hhi hlo' hhi' hpte hpte' hfree with heq | hwindow
    · exact .inl heq
    · exact absurd hwindow hne

/-- **The loop for a private mapping.** -/
theorem Forking.copyPrivate {ps : List ℕ} {b : Bool} (h : Forking (ps + hand) parent child ∅ k)
    (hlo : MMAPBASE ≤ va) (htemp : MMAPBASE ≤ temp)
    (hrun : copyPrivate parent child va temp ps k = .ok (k', b)) :
    Forking hand parent child ∅ k' := by
  induction ps generalizing va temp k with
  | nil =>
    cases hrun
    exact h.drop
  | cons p ps ih =>
    have hp : p ∈ (((p :: ps : List ℕ) : Multiset ℕ) + hand) :=
      Multiset.mem_add.mpr (.inl (Multiset.mem_coe.mpr List.mem_cons_self))
    have hsplit : (((p :: ps : List ℕ) : Multiset ℕ) + hand) = ([p] : List ℕ) + ((ps : Multiset ℕ) + hand) := by
      rw [← Multiset.cons_coe, Multiset.cons_add]
      rfl
    obtain ⟨⟨d, fl, mapped⟩, h₁, h₂⟩ := bind_eq_ok hrun
    dsimp only at h₂
    rw [Kernel.withDir_eq] at h₂
    obtain ⟨hva, -, ⟨rfl, hm⟩ | ⟨rfl, rfl, rfl, -, -⟩⟩ := mappages_ok h₁
    · rw [if_neg (by decide)] at h₂
      have hs : Sound (([p] : List ℕ) + ((ps : Multiset ℕ) + hand)) k := hsplit ▸ h.sound
      have hfork₁ : Forking (ps + hand) parent child ∅ (k.withDir child d fl k.mem) := by
        refine h.mapChild hm (hs.map h.childLive hm hlo k.mem) ?_
        intro va' hlo' hhi' hpte _
        exact absurd hpte (h.sound.hand_pte hp h.parentLive.1 hlo' hhi')
      obtain ⟨⟨d', fl', mapped'⟩, h₃, h₄⟩ := bind_eq_ok h₂
      dsimp only at h₄
      rw [Kernel.withDir_eq] at h₄
      obtain ⟨htemphi, -, ⟨rfl, hm'⟩ | ⟨rfl, rfl, rfl, -, -⟩⟩ := mappages_ok h₃
      · rw [if_neg (by decide)] at h₄
        -- the child maps the page, and the parent does not yet
        have hcommon : ispamapped p (k.withDir child d fl k.mem) := by
          refine ⟨child, hfork₁.childLive.1, mem_mapped_of_pte hlo hva ?_⟩
          rw [Kernel.withDir_self_proc]
          dsimp only
          rw [hm.pte, List.length_singleton, if_pos (by omega), Nat.sub_self]
          rfl
        have hnew : p ∉ ((k.withDir child d fl k.mem).proc parent).pgdir.mapped := by
          rw [Kernel.withDir_proc_of_ne _ _ _ _ _ h.ne.symm]
          exact fun hin => h.sound.not_mapped (mem_kept_hand hp) ⟨parent, h.parentLive.1, hin⟩
        have hfork₂ : Forking (ps + hand) parent child {temp}
            ((k.withDir child d fl k.mem).withDir parent d' fl' (k.withDir child d fl k.mem).mem) :=
          hfork₁.mapParent hm'
            (hfork₁.sound.mapCommon hfork₁.parentLive hm' htemp (.inl hcommon) (fun _ => hnew) _)
            (Set.empty_subset _) (.inl rfl)
        obtain ⟨k₁, h₅, h₆⟩ := bind_eq_ok h₄
        exact ih (hfork₂.copyPage h₅).close (Nat.le_succ_of_le hlo) (Nat.le_succ_of_le htemp) h₆
      · cases h₄
        have hself := Kernel.withDir_self (k.withDir child d fl' k.mem) parent
        rw [Kernel.withDir_freelist] at hself
        rw [hself]
        exact hfork₁.drop
    · cases h₂
      rw [Kernel.withDir_self]
      exact h.drop

/-! ### Shared mappings -/

/-- **The loop for a shared mapping.** -/
theorem Forking.copyShared {b : Bool} (h : Forking hand parent child ∅ k) (hlo : MMAPBASE ≤ va)
    (hrun : copyShared parent child va n k = .ok (k', b)) : Forking hand parent child ∅ k' := by
  induction n generalizing va k with
  | zero =>
    cases hrun
    exact h
  | succ n ih =>
    unfold Vm.copyShared at hrun
    split at hrun
    · cases hrun
    · rename_i pte hw
      obtain ⟨⟨d, fl, mapped⟩, h₁, h₂⟩ := bind_eq_ok hrun
      dsimp only at h₂
      rw [Kernel.withDir_eq] at h₂
      obtain ⟨hva, hnone, ⟨rfl, hm⟩ | ⟨rfl, rfl, rfl, -, -⟩⟩ := mappages_ok h₁
      · rw [if_pos rfl] at h₂
        have hpte : (k.proc parent).pgdir.pte va = pte := by
          unfold walkpgdir at hw
          rw [if_pos hva] at hw
          obtain ⟨-, -, heq⟩ := Option.map_eq_some_iff.mp hw
          exact heq
        have hparent : k.Freeable (pte.getD 0) → (k.proc parent).pgdir.pte va = some (pte.getD 0) := by
          intro hfree
          cases pte with
          | none => exact absurd hfree h.sound.zero_not_freeable
          | some x => exact hpte
        have hcommon : ispamapped (pte.getD 0) k ∨ pte.getD 0 = 0 ∨ pte.getD 0 = nullPage := by
          cases pte with
          | none => exact .inr (.inl rfl)
          | some x => exact .inl ⟨parent, h.parentLive.1, mem_mapped_of_pte hlo hva hpte⟩
        have hsound : Sound hand (k.withDir child d fl k.mem) := by
          refine h.sound.mapCommon h.childLive hm hlo hcommon ?_ k.mem
          intro hfree ⟨i, hi, hpi⟩
          -- the child would map the page where the parent does, and nothing is mapped there
          rcases h.lineage _ va _ (Nat.le_add_right ..) (by omega) hlo hva hpi (hparent hfree) hfree
            with heq | hin
          · rw [← heq, hnone] at hpi
            cases hpi
          · exact hin
        refine ih (h.mapChild hm hsound fun va' hlo' hhi' hpte' hfree => ?_) (Nat.le_succ_of_le hlo) h₂
        have honce := (h.sound.tidy parent h.parentLive.1).once (va' - MMAPBASE) (by omega)
          (va - MMAPBASE) (by omega) (pte.getD 0)
        rw [Nat.add_sub_cancel' hlo', Nat.add_sub_cancel' hlo] at honce
        have heq := honce hpte' (hparent hfree) hfree
        omega
      · cases h₂
        rw [Kernel.withDir_self]
        exact h

/-! ### The records -/

theorem Forking.copyMapping {b : Bool} (h : Forking hand parent child ∅ k) (huse : m.inUse = true)
    (hrun : copyMapping parent child m k = .ok (k', b)) : Forking hand parent child ∅ k' := by
  have hlo := (inUse_iff.mp huse).2.1
  unfold Vm.copyMapping at hrun
  split at hrun
  · obtain ⟨⟨k₁, pages⟩, h₁, h₂⟩ := bind_eq_ok hrun
    have hnil : Sound (([] : List ℕ) + hand) k := by
      rw [Multiset.coe_nil, zero_add]
      exact h.sound
    have hsound := hnil.allocPages h₁
    have hfork : Forking ((pages.getD [] : List ℕ) + hand) parent child ∅ k₁ := by
      obtain ⟨-, -, rfl⟩ | ⟨-, -, mem, rfl⟩ := allocPages_ok h₁
      · exact h.congr hsound (fun _ => ⟨rfl, rfl⟩) rfl
      · exact h.congr hsound (fun _ => ⟨rfl, rfl⟩) rfl
    cases pages with
    | none =>
      cases h₂
      exact hfork.drop
    | some physicalPages =>
      dsimp only at h₂
      split at h₂
      · cases h₂
        exact hfork.drop
      · rename_i temp htemp
        exact hfork.copyPrivate hlo (findfreevirtualaddress_some htemp).1 h₂
  · split at hrun
    · exact h.copyShared hlo hrun
    · cases hrun
      exact h

/-- The child gets the record. -/
theorem Forking.record (h : Forking hand parent child ∅ k) (huse : m.inUse = true) :
    Forking hand parent child ∅ ((k.modify child fun p =>
      { p with mapEntries := Function.update p.mapEntries (k.proc child).currentMappingIndex m }).modify
        child fun p => { p with currentMappingIndex := p.currentMappingIndex + 1 }) := by
  have hentry : Sound hand (k.withEntry child (k.proc child).currentMappingIndex m) :=
    h.sound.withEntry fun _ => (inUse_iff.mp huse).2.2
  refine h.congr (hentry.congr (fun q => ?_) rfl rfl) (fun q => ?_) rfl
  · unfold Kernel.withEntry
    by_cases hq : q = child
    · rw [hq, Kernel.modify_self, Kernel.modify_self]
      exact ⟨rfl, rfl, rfl, rfl, rfl⟩
    · rw [Kernel.modify_of_ne _ hq]
      exact ⟨rfl, rfl, rfl, rfl, rfl⟩
  · by_cases hq : q = child
    · rw [hq, Kernel.modify_self, Kernel.modify_self]
      exact ⟨rfl, rfl⟩
    · rw [Kernel.modify_of_ne _ hq, Kernel.modify_of_ne _ hq]
      exact ⟨rfl, rfl⟩

/-- **The loop over the records.** -/
theorem Forking.copyEntries {ms : List MapEntry} {b : Bool} (h : Forking hand parent child ∅ k)
    (hrun : copyEntries parent child ms k = .ok (k', b)) : Forking hand parent child ∅ k' := by
  induction ms generalizing k with
  | nil =>
    cases hrun
    exact h
  | cons m ms ih =>
    unfold Vm.copyEntries at hrun
    split at hrun
    · rename_i huse
      obtain ⟨k₁, h₁, h₂⟩ := bind_eq_ok hrun
      obtain ⟨-, rfl⟩ := setEntry_ok h₁
      obtain ⟨⟨k₂, copied⟩, h₃, h₄⟩ := bind_eq_ok h₂
      have hcopied := (h.record huse).copyMapping huse h₃
      dsimp only at h₄
      split at h₄
      · exact ih hcopied h₄
      · cases h₄
        exact hcopied
    · exact ih h hrun

/-! ### `fork` -/

theorem copyuvm_ok {r : Option PgDir} {sz : ℕ} (hsz : sz ≤ MMAPBASE * PGSIZE)
    (h : copyuvm d sz k = .ok (k', r)) :
    ∃ fl mem, k' = { k with freelist := fl, mem := mem } ∧ (fl : Multiset ℕ) ≤ k.freelist ∧
      ∀ d', r = some d' → Reshaped .empty d' k.freelist fl := by
  obtain ⟨⟨k₁, r₁⟩, h₁, h₂⟩ := bind_eq_ok h
  obtain ⟨fl, mem, rfl, hle, hr⟩ := setupkvm_ok h₁
  cases r₁ with
  | none =>
    cases h₂
    exact ⟨fl, mem, rfl, hle, fun _ hd => by cases hd⟩
  | some d₁ =>
    have hd₁ := hr d₁ rfl
    dsimp only at h₂
    split at h₂
    · have hpages := imagePages_le hsz
      obtain ⟨fl', mem', rfl, hle', hr'⟩ := buildImage_ok hd₁.rangePages_eq (by omega) h₂
      exact ⟨fl', mem', rfl, hle'.trans hd₁.le, fun d' hd' => hd₁.trans (hr' d' hd')⟩
    · cases h₂

/-- A slot that was not in use gets a process without mappings. -/
theorem Sound.install {np : Slot} {p : Proc} (h : Sound hand k) (hunused : (k.proc np).state = .UNUSED)
    (hother : ∀ q, q ≠ np → k'.proc q = k.proc q) (hend : k'.kernelEnd = k.kernelEnd)
    (hp : k'.proc np = p) (hpages : (k'.freelist : Multiset ℕ) + ({p.kstack} + p.pgdir.own) ≤ k.freelist)
    (hstate : p.state = .RUNNABLE) (hnone : ∀ x, x ∉ p.pgdir.mapped) (hsz : p.sz ≤ MMAPBASE * PGSIZE)
    (hentries : ∀ i < NMAP, (p.mapEntries i).isValid = false) : Sound hand k' := by
  have huse : p.state ≠ .UNUSED := by
    rw [hstate]
    exact fun hz => by cases hz
  refine h.change np 0 0 hother hend ?_ Multiset.nodup_zero
    (fun x hx => absurd hx (Multiset.notMem_zero x)) ?_
  · have hown : (k.proc np).own = 0 := if_pos hunused
    rw [hp, own_of_live huse, hown, add_zero, add_zero, zero_add, add_assoc]
    exact add_le_add_right hpages _
  · rw [hp]
    refine fun _ => ⟨⟨?_, ?_, fun _ => hnone, ?_, hsz⟩, fun x hx => absurd hx (hnone x)⟩
    · intro i hi j hj x hpi
      exact absurd ⟨i, hi, hpi⟩ (hnone x)
    · exact fun x hx => absurd hx (hnone x)
    · intro i hi hv
      rw [hentries i hi] at hv
      cases hv

/-- The child has its image, and no mappings yet. -/
theorem Sound.start {np : Slot} {p : Proc} {fl₀ : List ℕ} (h : Sound hand k) (hlive : (k.proc c).Live)
    (hne : np ≠ c) (hunused : (k.proc np).state = .UNUSED)
    (hother : ∀ q, q ≠ np → k'.proc q = k.proc q) (hend : k'.kernelEnd = k.kernelEnd)
    (hp : k'.proc np = p) (hfl : k.freelist = p.kstack :: fl₀) (hstate : p.state = .RUNNABLE)
    (hd : Reshaped .empty p.pgdir fl₀ k'.freelist) (hsz : p.sz ≤ MMAPBASE * PGSIZE)
    (hentries : ∀ i < NMAP, (p.mapEntries i).isValid = false) : Forking hand c np ∅ k' := by
  have hnone : ∀ x, x ∉ p.pgdir.mapped := by
    rw [hd.mapped]
    exact notMem_mapped_empty
  have hsound : Sound hand k' := by
    refine h.install hunused hother hend hp ?_ hstate hnone hsz hentries
    rw [hfl, ← Multiset.cons_coe, ← Multiset.singleton_add, add_left_comm]
    exact add_le_add_right hd.le _
  refine ⟨hsound, ?_, ?_, hne, ?_⟩
  · rw [hother c hne.symm]
    exact hlive
  · rw [hp]
    unfold Proc.Live
    rw [hstate]
    constructor
    · intro hz
      cases hz
    · intro hz
      cases hz
  · intro va va' x hlo hhi hlo' hhi' hpte
    rw [hp] at hpte
    exact absurd (mem_mapped_of_pte hlo hhi hpte) (hnone x)

theorem Sound.fork {r : Option (Slot × ℕ)} (h : Sound hand k) (hlive : (k.proc c).Live)
    (hrun : fork c k = .ok (k', r)) : Sound hand k' := by
  unfold Vm.fork at hrun
  split at hrun
  · cases hrun
    exact h
  · rename_i np hnp
    have hunused : (k.proc np).state = .UNUSED := of_decide_eq_true (firstSlot_some hnp)
    have hne : np ≠ c := by
      rintro rfl
      exact hlive.1 hunused
    extract_lets pid src k₀ at hrun
    have hother : ∀ q, q ≠ np → k₀.proc q = k.proc q :=
      fun q hq => Kernel.modify_of_ne k hq fun p => { p with pid := pid }
    have hnp₀ : k₀.proc np = { k.proc np with pid := pid } :=
      Kernel.modify_self k np fun p => { p with pid := pid }
    have hfl₀ : k₀.freelist = k.freelist := rfl
    have hend : k₀.kernelEnd = k.kernelEnd := rfl
    clear_value k₀ src pid
    have hpid : Sound hand k₀ := by
      refine h.congr (fun q => ?_) hfl₀ hend
      by_cases hq : q = np
      · rw [hq, hnp₀]
        exact ⟨rfl, rfl, rfl, rfl, rfl⟩
      · rw [hother q hq]
        exact ⟨rfl, rfl, rfl, rfl, rfl⟩
    have hlive₀ : (k₀.proc c).Live := (hother c hne.symm).symm ▸ hlive
    have hunused₀ : (k₀.proc np).state = .UNUSED := by
      rw [hnp₀]
      exact hunused
    cases hfl : k₀.freelist with
    | nil =>
      rw [hfl] at hrun
      cases hrun
      exact hpid
    | cons kstack rest =>
      rw [hfl] at hrun
      obtain ⟨⟨k₁, r₁⟩, h₁, h₂⟩ := bind_eq_ok hrun
      have hsz := (hpid.tidy c hlive₀.1).size
      obtain ⟨fl, mem, rfl, hle, hr⟩ := copyuvm_ok hsz h₁
      cases r₁ with
      | none =>
        obtain ⟨k₂, h₃, h₄⟩ := bind_eq_ok h₂
        cases h₄
        obtain ⟨-, mem', rfl⟩ := kfree_ok h₃
        refine hpid.move rfl rfl ?_
        show hand + ((kstack :: fl : List ℕ) : Multiset ℕ) ≤ hand + k₀.freelist
        rw [hfl]
        exact add_le_add_right (Multiset.cons_le_cons _ hle) _
      | some d =>
        have hd := hr d rfl
        obtain ⟨⟨k₂, copied⟩, h₃, h₄⟩ := bind_eq_ok h₂
        cases h₄
        unfold copymemorymappings at h₃
        refine (Forking.copyEntries ?_ h₃).sound
        refine hpid.start hlive₀ hne hunused₀ (fun q hq => Kernel.modify_of_ne _ hq _) rfl
          (Kernel.modify_self ..) hfl rfl hd hsz fun i hi => ?_
        dsimp only
        rw [if_pos hi]
        rfl

end OperatingSystems.Vm
