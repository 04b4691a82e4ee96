import Mathlib
import OperatingSystems.Vm.Pages

/-!
# What accesses to user memory and to files do

The accesses of the kernel to user memory can grow a mapping.  What growth keeps, the accesses keep
(`loadBytes_keeps`, `storeBytes_keeps`, `writeChunks_keeps`); and where the pages are present nothing
grows, and the accesses read and write the bytes of the process (`Kernel.byteAt`).

* **`cangrowup_ok`** — what growth does to the page directory and the record.
* **`storeBytes_present`** — the bytes are where they were put.
* **`writeChunks_cases`** — the chunks of `filewrite` make one write of what they reach.
-/

namespace OperatingSystems.Vm

open Outcomes

variable {k k' : Kernel} {c : Slot} {va : ℕ} {P : Kernel → Prop}

/-! ### Growth -/

/-- The record of a mapping that has grown by a page. -/
def MapEntry.grown (m : MapEntry) : MapEntry :=
  { m with numPages := m.numPages + 1, guardPageVirtualAddress := m.guardPageVirtualAddress + 1 }

/-- Record `i` of process `c` is replaced. -/
def Kernel.withEntry (k : Kernel) (c : Slot) (i : ℕ) (m : MapEntry) : Kernel :=
  k.modify c fun p => { p with mapEntries := Function.update p.mapEntries i m }

theorem growsInto_iff {p : Proc} {m : MapEntry} : growsInto p va m = true ↔
    m.inUse = true ∧ has m.flags MAP_GROWSUP = true ∧ va = m.startingVirtualAddress + m.numPages ∧
      canallocatva p (va + 1) 1 = true := by
  simp only [growsInto, Bool.and_eq_true, decide_eq_true_eq, and_assoc]
  constructor
  · rintro ⟨h1, h2, rfl, h4⟩
    exact ⟨h1, h2, rfl, h4⟩
  · rintro ⟨h1, h2, rfl, h4⟩
    exact ⟨h1, h2, rfl, h4⟩

/-- `kalloc`, as growth uses it: a null pointer is a page like any other. -/
def Takes (fl : List ℕ) (pa : ℕ) (fl' : List ℕ) : Prop :=
  fl = pa :: fl' ∨ fl = [] ∧ pa = nullPage ∧ fl' = []

theorem kalloc_getD (fl : List ℕ) :
    Takes fl ((kalloc fl).getD (nullPage, fl)).1 ((kalloc fl).getD (nullPage, fl)).2 := by
  cases fl with
  | nil => exact Or.inr ⟨rfl, rfl, rfl⟩
  | cons p rest => exact Or.inl rfl

/-- **What growth does**: it maps a page at the guard page of a record and lets the record follow, or it
fails, at most with a page taken. -/
theorem cangrowup_ok {b : Bool} (h : cangrowup c va k = .ok (k', b)) :
    (b = false ∧ k' = k) ∨
      ∃ i ≤ (k.proc c).currentMappingIndex, growsInto (k.proc c) va ((k.proc c).mapEntries i) = true ∧
        ∃ pa fl, Takes k.freelist pa fl ∧
          (b = false ∧ fl = [] ∧ k' = k.withDir c (k.proc c).pgdir [] k.mem ∨
            b = true ∧ i < NMAP ∧ va < KERNBASE ∧ (k.proc c).pgdir.pte va = none ∧
              ∃ d fl', Mapped (k.proc c).pgdir d va [pa] fl fl' ∧
                k' = (k.withDir c d fl' k.mem).withEntry c i ((k.proc c).mapEntries i).grown) := by
  unfold cangrowup at h
  dsimp only at h
  split at h
  · cases h
    exact Or.inl ⟨rfl, rfl⟩
  · rename_i i hi
    have hg := List.find?_some hi
    have hlt := List.mem_range.mp (List.mem_of_find?_eq_some hi)
    obtain ⟨-, -, hva, -⟩ := growsInto_iff.mp hg
    have ht := kalloc_getD k.freelist
    rw [← hva] at h
    obtain ⟨⟨d, fl', mapped⟩, h₁, h₂⟩ := bind_eq_ok h
    dsimp only at h₂
    refine Or.inr ⟨i, Nat.lt_succ_iff.mp hlt, hg, _, _, ht, ?_⟩
    obtain ⟨hlt, hnone, ⟨rfl, hm⟩ | ⟨rfl, rfl, rfl, hnil, -⟩⟩ := mappages_ok h₁
    · obtain ⟨k₁, h₃, h₄⟩ := bind_eq_ok h₂
      obtain ⟨hi, rfl⟩ := setEntry_ok h₃
      cases h₄
      exact Or.inr ⟨rfl, hi, hlt, hnone, d, fl', hm, rfl⟩
    · cases h₂
      refine Or.inl ⟨rfl, hnil, ?_⟩
      rw [Kernel.withDir_eq, hnil]

/-! ### Touching a page -/

theorem touch_present {pa : ℕ} (h : (k.proc c).pgdir.pte va = some pa) :
    touch c va k = .ok (k, pa) := by
  unfold touch
  rw [h]
  rfl

theorem touch_ok {pa : ℕ} (h : touch c va k = .ok (k', pa)) :
    (k'.proc c).pgdir.pte va = some pa ∧ (k' = k ∨ cangrowup c va k = .ok (k', true)) := by
  unfold touch at h
  cases hp : (k.proc c).pgdir.pte va with
  | some pa' =>
    rw [hp] at h
    cases h
    exact ⟨hp, Or.inl rfl⟩
  | none =>
    rw [hp] at h
    obtain ⟨⟨k₁, grown⟩, h₁, h₂⟩ := bind_eq_ok h
    dsimp only at h₂
    split at h₂
    · rename_i pa' hp'
      cases h₂
      exact ⟨hp', Or.inr h₁⟩
    · cases h₂

section Keeps

variable {S : ℕ → Prop}

/-- A property that growth for process `c` at the pages of `S` keeps. -/
def GrowthKeeps (c : Slot) (S : ℕ → Prop) (P : Kernel → Prop) : Prop :=
  ∀ va k k', S va → cangrowup c va k = .ok (k', true) → P k → P k'

theorem touch_keeps (hgrow : GrowthKeeps c S P) {pa : ℕ} (hS : S va)
    (h : touch c va k = .ok (k', pa)) (hk : P k) : P k' := by
  obtain ⟨-, rfl | hg⟩ := touch_ok h
  · exact hk
  · exact hgrow va k k' hS hg hk

/-- The pages of `n` addresses lie in `S`. -/
def Within (S : ℕ → Prop) (addr n : ℕ) : Prop :=
  ∀ i < n, S ((addr + i) / PGSIZE)

theorem Within.tail {addr n : ℕ} (h : Within S addr (n + 1)) : Within S (addr + 1) n := by
  intro i hi
  have := h (i + 1) (Nat.succ_lt_succ hi)
  rwa [show addr + (i + 1) = addr + 1 + i by omega] at this

theorem loadBytes_keeps (hgrow : GrowthKeeps c S P) {addr n : ℕ} {bs : List UInt8}
    (hS : Within S addr n) (h : loadBytes c addr n k = .ok (k', bs)) (hk : P k) : P k' := by
  induction n generalizing addr k bs with
  | zero =>
    cases h
    exact hk
  | succ n ih =>
    obtain ⟨⟨k₁, b⟩, h₁, h₂⟩ := bind_eq_ok h
    obtain ⟨⟨k₂, bs'⟩, h₃, h₄⟩ := bind_eq_ok h₂
    cases h₄
    obtain ⟨⟨k₃, pa⟩, h₅, h₆⟩ := bind_eq_ok h₁
    cases h₆
    exact ih hS.tail h₃ (touch_keeps hgrow (hS 0 (Nat.succ_pos _)) h₅ hk)

theorem storeByte_keeps (hgrow : GrowthKeeps c S P) (hmem : ∀ k mem, P k → P { k with mem := mem })
    {addr : ℕ} {b : UInt8} (hS : S (addr / PGSIZE)) (h : storeByte c addr b k = .ok k') (hk : P k) :
    P k' := by
  obtain ⟨⟨k₁, pa⟩, h₁, h₂⟩ := bind_eq_ok h
  cases h₂
  exact hmem _ _ (touch_keeps hgrow hS h₁ hk)

theorem storeBytes_keeps (hgrow : GrowthKeeps c S P) (hmem : ∀ k mem, P k → P { k with mem := mem })
    {addr : ℕ} {bs : List UInt8} (hS : Within S addr bs.length)
    (h : storeBytes c addr bs k = .ok k') (hk : P k) : P k' := by
  induction bs generalizing addr k with
  | nil =>
    cases h
    exact hk
  | cons b bs ih =>
    obtain ⟨k₁, h₁, h₂⟩ := bind_eq_ok h
    exact ih hS.tail h₂ (storeByte_keeps hgrow hmem (hS 0 (Nat.succ_pos _)) h₁ hk)

theorem cangrowup_file (h : cangrowup c va k = .ok (k', true)) :
    k'.file = k.file ∧ k'.inode = k.inode := by
  obtain ⟨hb, -⟩ | ⟨i, -, -, pa, fl, -, ⟨hb, -⟩ | ⟨-, -, -, -, d, fl', -, rfl⟩⟩ := cangrowup_ok h
  · cases hb
  · cases hb
  · exact ⟨rfl, rfl⟩

theorem loadBytes_file {addr n : ℕ} {bs : List UInt8} (h : loadBytes c addr n k = .ok (k', bs)) :
    k'.file = k.file ∧ k'.inode = k.inode := by
  refine loadBytes_keeps (S := fun _ => True) (P := fun k₁ => k₁.file = k.file ∧ k₁.inode = k.inode)
    ?_ (fun _ _ => trivial) h ⟨rfl, rfl⟩
  intro va k₁ k₂ _ hg hk
  obtain ⟨h1, h2⟩ := cangrowup_file hg
  exact ⟨h1.trans hk.1, h2.trans hk.2⟩

/-- What growth keeps, and each change of the offset of file `f` and of its inode, a write keeps. -/
theorem writeChunks_keeps (hgrow : GrowthKeeps c S P) {f : ℕ} {ext : External}
    (hoff : ∀ k off, P k → P (k.setFile f { k.file f with off := off }))
    (hinode : ∀ k ip, P k → P { k with inode := Function.update k.inode (k.file f).ip ip })
    {addr rounds n : ℕ} {b : Bool} (hS : Within S addr n)
    (h : writeChunks c f addr ext rounds n k = .ok (k', b)) (hk : P k) : P k' := by
  induction rounds generalizing addr n k with
  | zero =>
    cases h
    exact hk
  | succ rounds ih =>
    unfold writeChunks at h
    split at h
    · cases h
      exact hk
    · obtain ⟨⟨k₁, written⟩, h₁, h₂⟩ := bind_eq_ok h
      have hk₁ : P k₁ := by
        unfold writei at h₁
        dsimp only at h₁
        split at h₁
        · cases h₁
          exact hk
        · split at h₁
          · cases h₁
            exact hk
          · obtain ⟨⟨k₂, bytes⟩, h₃, h₄⟩ := bind_eq_ok h₁
            cases h₄
            rw [← (loadBytes_file h₃).1]
            exact hinode _ _ (loadBytes_keeps hgrow (fun i hi => hS i (by omega)) h₃ hk)
      dsimp only at h₂
      split at h₂
      · refine ih ?_ h₂ (hoff _ _ hk₁)
        intro i hi
        rw [Nat.add_assoc]
        exact hS _ (by omega)
      · cases h₂
        exact hk₁

theorem filewrite_keeps (hgrow : GrowthKeeps c S P) {f : ℕ} {ext : External}
    (hoff : ∀ k off, P k → P (k.setFile f { k.file f with off := off }))
    (hinode : ∀ k ip, P k → P { k with inode := Function.update k.inode (k.file f).ip ip })
    {addr n : ℕ} {b : Bool} (hS : Within S addr n) (h : filewrite c f addr n ext k = .ok (k', b))
    (hk : P k) : P k' := by
  unfold filewrite at h
  dsimp only at h
  split at h
  · cases h
    exact hk
  · split at h
    · cases h
      exact hk
    · exact writeChunks_keeps hgrow hoff hinode hS h hk
    · cases h

end Keeps

/-! ### Present pages -/

/-- The byte that an address of process `c` holds. -/
def Kernel.byteAt (k : Kernel) (c : Slot) (addr : ℕ) : Option UInt8 :=
  ((k.proc c).pgdir.pte (addr / PGSIZE)).map fun pa => k.mem pa (addr % PGSIZE)

theorem byteAt_of_pte {addr pa : ℕ} (h : (k.proc c).pgdir.pte (addr / PGSIZE) = some pa) :
    k.byteAt c addr = some (k.mem pa (addr % PGSIZE)) := by
  unfold Kernel.byteAt
  rw [h]
  rfl

/-- The bytes of `n` addresses. -/
def Kernel.bytesAt (k : Kernel) (c : Slot) (addr n : ℕ) : List UInt8 :=
  (List.range n).map fun i => (k.byteAt c (addr + i)).getD 0

@[simp] theorem Kernel.length_bytesAt (k : Kernel) (c : Slot) (addr n : ℕ) :
    (k.bytesAt c addr n).length = n := by
  rw [Kernel.bytesAt, List.length_map, List.length_range]

theorem Kernel.bytesAt_succ (k : Kernel) (c : Slot) (addr n : ℕ) :
    k.bytesAt c addr (n + 1) = (k.byteAt c addr).getD 0 :: k.bytesAt c (addr + 1) n := by
  unfold Kernel.bytesAt
  rw [List.range_succ_eq_map, List.map_cons, List.map_map]
  congr 1
  refine List.map_congr_left ?_
  intro i _
  show (k.byteAt c (addr + (i + 1))).getD 0 = _
  rw [show addr + (i + 1) = addr + 1 + i by omega]

theorem Kernel.bytesAt_add (k : Kernel) (c : Slot) (addr m n : ℕ) :
    k.bytesAt c addr (m + n) = k.bytesAt c addr m ++ k.bytesAt c (addr + m) n := by
  induction m generalizing addr with
  | zero =>
    rw [Nat.zero_add]
    rfl
  | succ m ih =>
    rw [show m + 1 + n = m + n + 1 by omega, Kernel.bytesAt_succ, Kernel.bytesAt_succ, ih,
      show addr + (m + 1) = addr + 1 + m by omega]
    rfl

/-- The page of each of `n` addresses is present. -/
def Kernel.Backed (k : Kernel) (c : Slot) (addr n : ℕ) : Prop :=
  ∀ i < n, ((k.proc c).pgdir.pte ((addr + i) / PGSIZE)).isSome

theorem Kernel.Backed.tail {addr n : ℕ} (h : k.Backed c addr (n + 1)) : k.Backed c (addr + 1) n := by
  intro i hi
  have := h (i + 1) (Nat.succ_lt_succ hi)
  rwa [show addr + (i + 1) = addr + 1 + i by omega] at this

theorem Kernel.Backed.head {addr n : ℕ} (h : k.Backed c addr (n + 1)) :
    ∃ pa, (k.proc c).pgdir.pte (addr / PGSIZE) = some pa :=
  Option.isSome_iff_exists.mp (h 0 (Nat.succ_pos _))

theorem loadByte_present {addr pa : ℕ} (h : (k.proc c).pgdir.pte (addr / PGSIZE) = some pa) :
    loadByte c addr k = .ok (k, k.mem pa (addr % PGSIZE)) := by
  unfold loadByte
  rw [touch_present h]
  rfl

theorem storeByte_present {addr pa : ℕ} {b : UInt8}
    (h : (k.proc c).pgdir.pte (addr / PGSIZE) = some pa) :
    storeByte c addr b k = .ok { k with
      mem := Function.update k.mem pa (Function.update (k.mem pa) (addr % PGSIZE) b) } := by
  unfold storeByte
  rw [touch_present h]
  rfl

theorem loadBytes_present {addr n : ℕ} (h : k.Backed c addr n) :
    loadBytes c addr n k = .ok (k, k.bytesAt c addr n) := by
  induction n generalizing addr with
  | zero => rfl
  | succ n ih =>
    obtain ⟨pa, hpa⟩ := h.head
    show (loadByte c addr k >>= _) = _
    rw [loadByte_present hpa, ok_bind]
    show (loadBytes c (addr + 1) n k >>= _) = _
    rw [ih h.tail, ok_bind, Kernel.bytesAt_succ, byteAt_of_pte hpa]
    rfl

/-- The page of address `x` is mapped at no other page of `n` addresses from `addr` on. -/
def Kernel.Alone (k : Kernel) (c : Slot) (addr n x : ℕ) : Prop :=
  ∀ i < n, (k.proc c).pgdir.pte ((addr + i) / PGSIZE) = (k.proc c).pgdir.pte (x / PGSIZE) →
    (addr + i) / PGSIZE = x / PGSIZE

theorem Kernel.Alone.tail {addr n x : ℕ} (h : k.Alone c addr (n + 1) x) :
    k.Alone c (addr + 1) n x := by
  intro i hi he
  have := h (i + 1) (Nat.succ_lt_succ hi)
  rw [show addr + (i + 1) = addr + 1 + i by omega] at this
  exact this he

/-- One byte is stored, and the others are as they were. -/
theorem byteAt_store {addr pa x : ℕ} {b : UInt8}
    (h : (k.proc c).pgdir.pte (addr / PGSIZE) = some pa)
    (hx : (k.proc c).pgdir.pte (addr / PGSIZE) = (k.proc c).pgdir.pte (x / PGSIZE) →
      addr / PGSIZE = x / PGSIZE) :
    Kernel.byteAt { k with
      mem := Function.update k.mem pa (Function.update (k.mem pa) (addr % PGSIZE) b) } c x =
      if x = addr then some b else k.byteAt c x := by
  unfold Kernel.byteAt
  dsimp only
  by_cases he : x = addr
  · rw [if_pos he, he, h, Option.map_some, Function.update_self, Function.update_self]
  · rw [if_neg he]
    cases hp : (k.proc c).pgdir.pte (x / PGSIZE) with
    | none => rfl
    | some pa' =>
      rw [Option.map_some, Option.map_some]
      by_cases hpa : pa' = pa
      · rw [hpa, Function.update_self, Function.update_of_ne]
        intro hmod
        have hdiv := hx (by rw [h, hp, hpa])
        refine he ?_
        rw [← Nat.div_add_mod x PGSIZE, ← Nat.div_add_mod addr PGSIZE, hmod, hdiv]
      · rw [Function.update_of_ne hpa]

/-- **The bytes are where they were put**, if the pages are present and not mapped twice. -/
theorem storeBytes_present {addr : ℕ} {bs : List UInt8} (h : k.Backed c addr bs.length) :
    ∃ mem, storeBytes c addr bs k = .ok { k with mem := mem } ∧
      (∀ pa, (∀ i < bs.length, (k.proc c).pgdir.pte ((addr + i) / PGSIZE) ≠ some pa) →
        mem pa = k.mem pa) ∧
      ∀ x, k.Alone c addr bs.length x → Kernel.byteAt { k with mem := mem } c x =
        if addr ≤ x ∧ x < addr + bs.length then bs[x - addr]? else k.byteAt c x := by
  induction bs generalizing addr k with
  | nil =>
    refine ⟨k.mem, rfl, fun _ _ => rfl, ?_⟩
    intro x _
    rw [if_neg (by simp)]
  | cons b bs ih =>
    rw [List.length_cons] at h
    obtain ⟨pa, hpa⟩ := h.head
    have hstep := storeByte_present (b := b) hpa
    obtain ⟨mem, hrun, hother, hbyte⟩ := ih (k := { k with
      mem := Function.update k.mem pa (Function.update (k.mem pa) (addr % PGSIZE) b) }) h.tail
    refine ⟨mem, ?_, ?_, ?_⟩
    · show (storeByte c addr b k >>= _) = _
      rw [hstep, ok_bind]
      exact hrun
    · intro pa' hno
      have hne : pa' ≠ pa := by
        rintro rfl
        exact hno 0 (Nat.succ_pos _) hpa
      refine (hother pa' ?_).trans (Function.update_of_ne hne ..)
      intro i hi
      have := hno (i + 1) (Nat.succ_lt_succ hi)
      rwa [show addr + (i + 1) = addr + 1 + i by omega] at this
    · intro x hx
      rw [List.length_cons] at hx
      rw [hbyte x hx.tail, byteAt_store hpa (hx 0 (Nat.succ_pos _)), List.length_cons]
      rcases lt_trichotomy x addr with hlt | rfl | hlt
      · rw [if_neg (by omega), if_neg (by omega), if_neg (by omega)]
      · rw [if_neg (by omega), if_pos rfl, if_pos (by omega), Nat.sub_self]
        rfl
      · by_cases hin : x < addr + (bs.length + 1)
        · rw [if_pos (by omega), if_pos (by omega), show x - addr = x - (addr + 1) + 1 by omega,
            List.getElem?_cons_succ]
        · rw [if_neg (by omega), if_neg (by omega), if_neg (by omega)]

/-! ### Writing to a file -/

/-- No bytes leave the array as it is. -/
theorem Inode.put_nil {ip : Inode} {off : ℕ} (h : off ≤ ip.size) : ip.put [] off = ip := by
  unfold Inode.put
  rw [List.length_nil, Nat.add_zero, max_eq_left h]
  congr
  funext i
  rw [if_neg (by omega)]

/-- Two writes one behind the other are one. -/
theorem Inode.put_append (ip : Inode) (bs cs : List UInt8) (off : ℕ) :
    (ip.put bs off).put cs (off + bs.length) = ip.put (bs ++ cs) off := by
  unfold Inode.put
  dsimp only
  rw [List.length_append]
  congr 1
  · omega
  · funext i
    by_cases h1 : off ≤ i ∧ i < off + bs.length
    · rw [if_neg (by omega), if_pos h1, if_pos (by omega), List.getD_append _ _ _ _ (by omega)]
    · rw [if_neg h1]
      by_cases h2 : off + bs.length ≤ i ∧ i < off + bs.length + cs.length
      · rw [if_pos h2, if_pos (by omega), List.getD_append_right _ _ _ _ (by omega)]
        congr 1
        omega
      · rw [if_neg h2, if_neg (by omega)]

/-- The kernel after bytes have been written to file `f` at its offset. -/
def Kernel.wrote (k : Kernel) (f : ℕ) (bs : List UInt8) : Kernel :=
  { k with
    inode := Function.update k.inode (k.file f).ip ((k.inode (k.file f).ip).put bs (k.file f).off)
    file := Function.update k.file f { k.file f with off := (k.file f).off + bs.length } }

section Wrote

variable (k : Kernel) (f : ℕ) (bs cs : List UInt8)

@[simp] theorem Kernel.wrote_proc : (k.wrote f bs).proc = k.proc := rfl

@[simp] theorem Kernel.wrote_file :
    (k.wrote f bs).file f = { k.file f with off := (k.file f).off + bs.length } :=
  Function.update_self ..

@[simp] theorem Kernel.wrote_inode :
    (k.wrote f bs).inode (k.file f).ip = (k.inode (k.file f).ip).put bs (k.file f).off :=
  Function.update_self ..

theorem Kernel.wrote_nil (h : (k.file f).off ≤ (k.inode (k.file f).ip).size) : k.wrote f [] = k := by
  unfold Kernel.wrote
  rw [Inode.put_nil h, Function.update_eq_self, List.length_nil, Nat.add_zero, Function.update_eq_self]

theorem Kernel.wrote_zero {k : Kernel} {f addr : ℕ} (h : (k.file f).off ≤ (k.inode (k.file f).ip).size) :
    k.wrote f (k.bytesAt c addr 0) = k :=
  k.wrote_nil f h

theorem Kernel.wrote_wrote : (k.wrote f bs).wrote f cs = k.wrote f (bs ++ cs) := by
  have hput := (k.inode (k.file f).ip).put_append bs cs (k.file f).off
  unfold Kernel.wrote
  simp only [Function.update_self, Function.update_idem, hput, List.length_append, Nat.add_assoc]

end Wrote

/-! ### Records that grow on the way -/

/-- Some record of the process has become longer, and none shorter. -/
def Grown (c : Slot) (k k' : Kernel) : Prop :=
  (∀ i, ((k.proc c).mapEntries i).numPages ≤ ((k'.proc c).mapEntries i).numPages) ∧
    ∃ i < NMAP, ((k.proc c).mapEntries i).numPages < ((k'.proc c).mapEntries i).numPages

theorem grown_of_cangrowup (h : cangrowup c va k = .ok (k', true)) : Grown c k k' := by
  obtain ⟨hb, -⟩ | ⟨i, -, -, pa, fl, -, ⟨hb, -⟩ | ⟨-, hi, -, -, d, fl', -, rfl⟩⟩ := cangrowup_ok h
  · cases hb
  · cases hb
  · have hentry : ∀ j, ((((k.withDir c d fl' k.mem).withEntry c i ((k.proc c).mapEntries i).grown).proc
        c).mapEntries j).numPages =
        ((k.proc c).mapEntries j).numPages + if j = i then 1 else 0 := by
      intro j
      unfold Kernel.withEntry
      rw [Kernel.modify_self, Kernel.withDir_self_proc]
      by_cases hj : j = i
      · rw [hj, if_pos rfl]
        dsimp only
        rw [Function.update_self]
        rfl
      · rw [if_neg hj]
        dsimp only
        rw [Function.update_of_ne hj]
        rfl
    constructor
    · intro j
      rw [hentry]
      exact Nat.le_add_right ..
    · refine ⟨i, hi, ?_⟩
      rw [hentry, if_pos rfl]
      exact Nat.lt_succ_self _

/-- Only a page that is not present grows. -/
theorem cangrowup_pte (h : cangrowup c va k = .ok (k', true)) : (k.proc c).pgdir.pte va = none := by
  obtain ⟨hb, -⟩ | ⟨-, -, -, -, -, -, ⟨hb, -⟩ | ⟨-, -, -, hnone, -⟩⟩ := cangrowup_ok h
  · cases hb
  · cases hb
  · exact hnone

/-- Growth does not make up for growth. -/
theorem Grown.growthKeeps (S : ℕ → Prop) : GrowthKeeps c S (Grown c k) := by
  intro x k₁ k₂ _ hgrow ⟨hle, i, hi, hlt⟩
  have hstep := (grown_of_cangrowup hgrow).1
  exact ⟨fun j => (hle j).trans (hstep j), i, hi, hlt.trans_le (hstep i)⟩

/-- Bytes are loaded from pages that are all present, or a record grows. -/
theorem loadBytes_cases {addr n : ℕ} {bs : List UInt8} (h : loadBytes c addr n k = .ok (k', bs)) :
    Grown c k k' ∧ ¬k.Backed c addr n ∨ k.Backed c addr n ∧ k' = k ∧ bs = k.bytesAt c addr n := by
  induction n generalizing addr bs with
  | zero =>
    cases h
    exact .inr ⟨fun i hi => absurd hi (Nat.not_lt_zero i), rfl, rfl⟩
  | succ n ih =>
    obtain ⟨⟨k₁, b⟩, h₁, h₂⟩ := bind_eq_ok h
    obtain ⟨⟨k₂, bs'⟩, h₃, h₄⟩ := bind_eq_ok h₂
    cases h₄
    obtain ⟨⟨k₃, pa⟩, h₅, h₆⟩ := bind_eq_ok h₁
    cases h₆
    obtain ⟨hpa, rfl | hgrow⟩ := touch_ok h₅
    · refine (ih h₃).imp (fun hgrown => ⟨hgrown.1, fun hbacked => hgrown.2 hbacked.tail⟩) ?_
      intro ⟨hbacked, hk, hbs⟩
      refine ⟨?_, hk, ?_⟩
      · intro i hi
        cases i with
        | zero =>
          rw [Nat.add_zero, hpa]
          rfl
        | succ i =>
          rw [show addr + (i + 1) = addr + 1 + i by omega]
          exact hbacked i (Nat.lt_of_succ_lt_succ hi)
      · rw [Kernel.bytesAt_succ, byteAt_of_pte hpa, hbs]
        rfl
    · refine .inl ⟨loadBytes_keeps (Grown.growthKeeps fun _ => True) (fun _ _ => trivial) h₃
        (grown_of_cangrowup hgrow), ?_⟩
      intro hbacked
      obtain ⟨pa', hpa'⟩ := hbacked.head
      rw [cangrowup_pte hgrow] at hpa'
      cases hpa'

/-- A write to a regular file fails beyond the largest size; else it puts the bytes, or a record grows. -/
theorem writei_cases {inum addr off n : ℕ} {ext : External} {b : Bool}
    (hdev : (k.inode inum).isDev = false) (hoff : off ≤ (k.inode inum).size)
    (h : writei c inum addr off n ext k = .ok (k', b)) :
    b = false ∧ MAXFILESIZE < off + n ∧ k' = k ∨
      b = true ∧ off + n ≤ MAXFILESIZE ∧ (Grown c k k' ∧ ¬k.Backed c addr n ∨
        k.Backed c addr n ∧ k' = { k with
          inode := Function.update k.inode inum ((k.inode inum).put (k.bytesAt c addr n) off) }) := by
  unfold writei at h
  dsimp only at h
  rw [if_neg (by rw [hdev]; exact Bool.false_ne_true)] at h
  by_cases hle : off + n ≤ MAXFILESIZE
  · rw [if_neg (by omega)] at h
    obtain ⟨⟨k₁, bytes⟩, h₁, h₂⟩ := bind_eq_ok h
    cases h₂
    refine .inr ⟨rfl, hle, (loadBytes_cases h₁).imp_right ?_⟩
    intro ⟨hbacked, hk, hbytes⟩
    rw [hk, hbytes]
    exact ⟨hbacked, rfl⟩
  · rw [if_pos (by omega)] at h
    cases h
    exact .inl ⟨rfl, not_le.mp hle, rfl⟩

/-- How far the chunks of `filewrite` come, from offset `off` on: to the end, or as many whole chunks as
the largest file has room for. -/
def Reaches (off n m : ℕ) : Prop :=
  m = n ∧ (n = 0 ∨ off + n ≤ MAXFILESIZE) ∨
    m < n ∧ CHUNK ∣ m ∧ (m = 0 ∨ off + m ≤ MAXFILESIZE) ∧ MAXFILESIZE < off + m + min (n - m) CHUNK

theorem Reaches.le {off n m : ℕ} (h : Reaches off n m) : m ≤ n := by
  rcases h with ⟨rfl, -⟩ | ⟨hlt, -⟩
  · exact le_rfl
  · exact hlt.le

theorem Reaches.unique {off n m m' : ℕ} (h : Reaches off n m) (h' : Reaches off n m') : m = m' := by
  -- the larger of two would leave room for a chunk behind the smaller
  have hless : ∀ {m m'}, Reaches off n m → Reaches off n m' → ¬m < m' := by
    intro m m' h h' hlt
    have hle := h'.le
    rcases h with ⟨rfl, -⟩ | ⟨-, hdvd, -, hmax⟩
    · omega
    · rcases h' with ⟨rfl, hfit⟩ | ⟨-, hdvd', hroom, -⟩
      · omega
      · have hchunk := Nat.le_of_dvd (Nat.sub_pos_of_lt hlt) (Nat.dvd_sub hdvd' hdvd)
        omega
  exact le_antisymm (not_lt.mp (hless h' h)) (not_lt.mp (hless h h'))

/-- A chunk that fits is reached. -/
theorem Reaches.first {off n m : ℕ} (hle : off + min n CHUNK ≤ MAXFILESIZE) (h : Reaches off n m) :
    min n CHUNK ≤ m := by
  rcases h with ⟨rfl, -⟩ | ⟨-, hdvd, -, hmax⟩
  · exact min_le_left ..
  · rcases Nat.eq_zero_or_pos m with rfl | hpos
    · rw [Nat.sub_zero] at hmax
      omega
    · exact (min_le_right ..).trans (Nat.le_of_dvd hpos hdvd)

theorem Reaches.step {off n m : ℕ} (hle : off + min n CHUNK ≤ MAXFILESIZE)
    (h : Reaches (off + min n CHUNK) (n - min n CHUNK) m) : Reaches off n (min n CHUNK + m) := by
  have hchunk : min n CHUNK = n ∨ min n CHUNK = CHUNK := by omega
  unfold Reaches at h ⊢
  rcases h with ⟨rfl, hfit⟩ | ⟨hlt, hdvd, hroom, hmax⟩
  · exact .inl ⟨by omega, .inr (by omega)⟩
  · refine .inr ⟨by omega, ?_, by omega, by omega⟩
    rw [hchunk.resolve_left (by omega)]
    exact (Nat.dvd_add_right (dvd_refl _)).mpr hdvd

/-- What is left to be reached behind the first chunk. -/
theorem Reaches.rest {off n m : ℕ} (hle : off + min n CHUNK ≤ MAXFILESIZE) (h : Reaches off n m) :
    Reaches (off + min n CHUNK) (n - min n CHUNK) (m - min n CHUNK) := by
  have hfirst := h.first hle
  have hchunk : min n CHUNK = n ∨ min n CHUNK = CHUNK := by omega
  unfold Reaches at h ⊢
  rcases h with ⟨rfl, hfit⟩ | ⟨hlt, hdvd, hroom, hmax⟩
  · exact .inl ⟨rfl, by omega⟩
  · have heq := hchunk.resolve_left (by omega)
    refine .inr ⟨by omega, ?_, by omega, by omega⟩
    rw [heq]
    exact Nat.dvd_sub hdvd (dvd_refl _)

/-- A write of present pages comes to an end. -/
theorem writeChunks_returns {f addr rounds n : ℕ} {ext : External} (hbacked : k.Backed c addr n) :
    ∃ r, writeChunks c f addr ext rounds n k = .ok r := by
  induction rounds generalizing addr n k with
  | zero => exact ⟨_, rfl⟩
  | succ rounds ih =>
    have hrest : ∀ i < n - min n CHUNK, ((k.proc c).pgdir.pte ((addr + min n CHUNK + i) / PGSIZE)).isSome := by
      intro i hi
      have hnext := hbacked (min n CHUNK + i) (by omega)
      rwa [← Nat.add_assoc] at hnext
    unfold writeChunks
    by_cases hn : n = 0
    · rw [if_pos hn]
      exact ⟨_, rfl⟩
    · rw [if_neg hn]
      dsimp only
      unfold writei
      dsimp only
      split
      · rw [ok_bind]
        dsimp only
        split
        · exact ih hrest
        · exact ⟨_, rfl⟩
      · by_cases hroom : (k.file f).off > (k.inode (k.file f).ip).size ∨
            (k.file f).off + min n CHUNK > MAXFILESIZE
        · rw [if_pos hroom]
          exact ⟨_, rfl⟩
        · have hfirst : k.Backed c addr (min n CHUNK) := fun i hi => hbacked i (by omega)
          rw [if_neg hroom, loadBytes_present hfirst, ok_bind]
          exact ih hrest

/-- **The chunks of `filewrite` make one write** of everything they reach, or a record grows. -/
theorem writeChunks_cases {f addr rounds n : ℕ} {ext : External} {b : Bool}
    (hdev : (k.inode (k.file f).ip).isDev = false)
    (hoff : (k.file f).off ≤ (k.inode (k.file f).ip).size) (hr : n ≤ rounds)
    (h : writeChunks c f addr ext rounds n k = .ok (k', b)) :
    Grown c k k' ∧ (∀ m, Reaches (k.file f).off n m → ¬k.Backed c addr m) ∨
      ∃ m, k.Backed c addr m ∧ k' = k.wrote f (k.bytesAt c addr m) ∧ b = decide (m = n) ∧
        Reaches (k.file f).off n m := by
  have hnone : k = k.wrote f (k.bytesAt c addr 0) := (Kernel.wrote_zero hoff).symm
  have hbacked₀ : k.Backed c addr 0 := fun i hi => absurd hi (Nat.not_lt_zero i)
  induction rounds generalizing addr n k with
  | zero =>
    obtain rfl := Nat.le_zero.mp hr
    cases h
    exact .inr ⟨0, hbacked₀, hnone, rfl, .inl ⟨rfl, .inl rfl⟩⟩
  | succ rounds ih =>
    unfold writeChunks at h
    by_cases hn : n = 0
    · subst hn
      cases h
      exact .inr ⟨0, hbacked₀, hnone, rfl, .inl ⟨rfl, .inl rfl⟩⟩
    · have hc : 0 < CHUNK := by decide
      rw [if_neg hn] at h
      obtain ⟨⟨k₁, written⟩, h₁, h₂⟩ := bind_eq_ok h
      dsimp only at h₂
      obtain ⟨rfl, hmax, rfl⟩ | ⟨rfl, hle, ⟨hgrown, habsent⟩ | ⟨hbacked, rfl⟩⟩ :=
        writei_cases hdev hoff h₁
      · -- nothing more fits
        cases h₂
        exact .inr ⟨0, hbacked₀, hnone, (decide_eq_false (Ne.symm hn)).symm,
          .inr ⟨Nat.pos_of_ne_zero hn, dvd_zero _, .inl rfl, hmax⟩⟩
      · refine .inl ⟨writeChunks_keeps (Grown.growthKeeps fun _ => True) (fun k₂ off hk => hk)
          (fun k₂ ip hk => hk) (fun _ _ => trivial) h₂ hgrown, ?_⟩
        intro m hm hbacked
        exact habsent fun i hi => hbacked i (hi.trans_le (hm.first hle))
      · have hk : Kernel.setFile { k with
            inode := Function.update k.inode (k.file f).ip
              ((k.inode (k.file f).ip).put (k.bytesAt c addr (min n CHUNK)) (k.file f).off) } f
              { k.file f with off := (k.file f).off + min n CHUNK } =
            k.wrote f (k.bytesAt c addr (min n CHUNK)) := by
          unfold Kernel.wrote
          rw [Kernel.length_bytesAt]
          rfl
        have hfile : ((k.wrote f (k.bytesAt c addr (min n CHUNK))).file f).off =
            (k.file f).off + min n CHUNK := by
          rw [Kernel.wrote_file, Kernel.length_bytesAt]
        rw [if_pos rfl] at h₂
        dsimp only at h₂
        rw [hk] at h₂
        have hoff₁ : ((k.wrote f (k.bytesAt c addr (min n CHUNK))).file f).off ≤
            ((k.wrote f (k.bytesAt c addr (min n CHUNK))).inode
              ((k.wrote f (k.bytesAt c addr (min n CHUNK))).file f).ip).size := by
          rw [Kernel.wrote_file, Kernel.wrote_inode]
          exact le_max_right ..
        refine (ih (by rw [Kernel.wrote_file, Kernel.wrote_inode]; exact hdev) hoff₁ (by omega) h₂
          (Kernel.wrote_zero hoff₁).symm fun i hi => absurd hi (Nat.not_lt_zero i)).imp ?_ ?_
        · intro ⟨hgrown, habsent⟩
          refine ⟨hgrown, fun m hm hwhole => ?_⟩
          have hrest := hm.rest hle
          rw [← hfile] at hrest
          refine habsent _ hrest fun i hi => ?_
          rw [Kernel.wrote_proc, Nat.add_assoc]
          exact hwhole _ (by omega)
        intro ⟨m, hbacked', hk', hb, hreaches⟩
        rw [hfile] at hreaches
        have hm := hreaches.le
        refine ⟨min n CHUNK + m, ?_, ?_, ?_, hreaches.step hle⟩
        · intro i hi
          by_cases hlt : i < min n CHUNK
          · exact hbacked i hlt
          · have hrest := hbacked' (i - min n CHUNK) (by omega)
            rwa [Kernel.wrote_proc, Nat.add_assoc, Nat.add_sub_cancel' (not_lt.mp hlt)] at hrest
        · rw [hk', Kernel.bytesAt_add, ← Kernel.wrote_wrote]
          rfl
        · rw [hb]
          exact decide_eq_decide.mpr (by omega)

end OperatingSystems.Vm
