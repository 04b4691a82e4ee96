import OperatingSystems.Sched.ProcTable

/-!
# What `getschedstate` stores

`sys_getschedstate` checks a pointer of the calling process and `getpschedinfo` fills the
`struct pschedinfo` behind it.  The loop goes through the table with one index for the slots and
another one for the entries, which only moves on behind a slot in use.

* **`getpschedinfo`** — the stores of the loop, in order; **`stored`** the structure after them.
* **`sys_getschedstate`** — the stores of a call and where the structure lies; `none` is `-1`.
* **`Reported`** — every entry tells the slot of its own index, each process once.
* **`reported_iff`** — when a successful call reports so.
* **`storesInside_iff`** — when a call stays inside the memory of the process.
-/

namespace OperatingSystems.Sched

/-! ### The structure and the loop -/

/-- The arrays of `struct pschedinfo`, in its order. -/
inductive Field
  | inuse | priority | nice | pid | ticks
deriving DecidableEq, Repr

/-- The content of a `struct pschedinfo`. -/
abbrev Pschedinfo := Field → ℕ → ℤ

/-- `psched->field[index] = value`. -/
structure Store where
  field : Field
  index : ℕ
  value : ℤ
deriving DecidableEq, Repr

def Store.apply (r : Pschedinfo) (s : Store) : Pschedinfo :=
  Function.update r s.field (Function.update (r s.field) s.index s.value)

/-- The structure after the stores. -/
def stored (stores : List Store) (r : Pschedinfo) : Pschedinfo :=
  stores.foldl Store.apply r

/-- What is stored for a slot in use. -/
def storeProc (p : Proc) (pschedIndex : ℕ) : List Store :=
  [⟨.inuse, pschedIndex, 1⟩, ⟨.pid, pschedIndex, p.pid⟩, ⟨.priority, pschedIndex, p.priority⟩,
    ⟨.nice, pschedIndex, p.nice⟩, ⟨.ticks, pschedIndex, p.ticks⟩]

/-- The loop of `getpschedinfo` over the slots that are left. -/
def getpschedinfoFrom : List Proc → ℕ → List Store
  | [], _ => []
  | p :: ps, pschedIndex =>
    if p.state = .UNUSED then ⟨.inuse, pschedIndex, 0⟩ :: getpschedinfoFrom ps pschedIndex
    else storeProc p pschedIndex ++ getpschedinfoFrom ps (pschedIndex + 1)

def getpschedinfo (k : Kernel) : List Store :=
  getpschedinfoFrom (List.ofFn k.table) 0

/-! ### The call -/

/-- What the system call looks at in the calling process: `sz`, `tf->esp` and the words of its
memory. -/
structure UserProc where
  sz : BitVec 32
  esp : BitVec 32
  word : BitVec 32 → BitVec 32

def fetchint (p : UserProc) (addr : BitVec 32) : Option (BitVec 32) :=
  if addr ≥ p.sz ∨ addr + 4 > p.sz then none else some (p.word addr)

def argint (p : UserProc) (n : ℕ) : Option (BitVec 32) :=
  fetchint p (p.esp + 4 + 4 * BitVec.ofNat 32 n)

def argptr (p : UserProc) (n : ℕ) (size : ℤ) : Option (BitVec 32) :=
  match argint p n with
  | none => none
  | some i =>
    if size < 0 ∨ i ≥ p.sz ∨ i + BitVec.ofInt 32 size > p.sz then none else some i

/-- `sizeof(struct pschedinfo *)`. -/
def sizeofPointer : ℤ := 4

/-- The pointer that was passed and the stores behind it. -/
def sys_getschedstate (p : UserProc) (k : Kernel) : Option (BitVec 32 × List Store) :=
  match argptr p 0 sizeofPointer with
  | none => none
  | some psched => if psched = 0 then none else some (psched, getpschedinfo k)

/-- Where an array begins. -/
def Field.offset : Field → ℕ
  | .inuse => 0
  | .priority => 4 * NPROC
  | .nice => 8 * NPROC
  | .pid => 12 * NPROC
  | .ticks => 16 * NPROC

/-- `sizeof(struct pschedinfo)`. -/
def sizeofPschedinfo : ℕ := 20 * NPROC

/-- The addresses of the four bytes of a store. -/
def Store.addresses (psched : BitVec 32) (s : Store) : List (BitVec 32) :=
  (List.range 4).map fun b => psched + BitVec.ofNat 32 (s.field.offset + 4 * s.index + b)

/-- Every address that a call writes to. -/
def written (p : UserProc) (k : Kernel) : List (BitVec 32) :=
  match sys_getschedstate p k with
  | none => []
  | some (psched, stores) => stores.flatMap (Store.addresses psched)

/-! ### What the stores leave behind -/

@[simp] theorem stored_nil (r : Pschedinfo) : stored [] r = r := rfl

@[simp] theorem stored_cons (s : Store) (stores : List Store) (r : Pschedinfo) :
    stored (s :: stores) r = stored stores (s.apply r) := rfl

theorem stored_append (stores more : List Store) (r : Pschedinfo) :
    stored (stores ++ more) r = stored more (stored stores r) :=
  List.foldl_append

theorem Store.apply_of_ne {s : Store} {f : Field} {k : ℕ} (r : Pschedinfo)
    (h : f ≠ s.field ∨ k ≠ s.index) : s.apply r f k = r f k := by
  unfold Store.apply
  by_cases hf : f = s.field
  · subst hf
    rw [Function.update_self, Function.update_of_ne (h.resolve_left (by simp))]
  · rw [Function.update_of_ne hf]

theorem stored_of_index_ne {stores : List Store} {k : ℕ} (r : Pschedinfo) (f : Field)
    (h : ∀ s ∈ stores, k ≠ s.index) : stored stores r f k = r f k := by
  induction stores generalizing r with
  | nil => rfl
  | cons s stores ih =>
    rw [stored_cons, ih _ fun t ht => h t (List.mem_cons_of_mem s ht)]
    exact Store.apply_of_ne r (.inr (h s List.mem_cons_self))

theorem storeProc_index {p : Proc} {n : ℕ} {s : Store} (h : s ∈ storeProc p n) : s.index = n := by
  simp only [storeProc, List.mem_cons, List.not_mem_nil, or_false] at h
  rcases h with rfl | rfl | rfl | rfl | rfl <;> rfl

/-- **The indices of the loop**: it stores at the entries from where it stands, and at no more of
them than there are slots left. -/
theorem getpschedinfoFrom_index {ps : List Proc} {n : ℕ} {s : Store}
    (h : s ∈ getpschedinfoFrom ps n) : n ≤ s.index ∧ s.index < n + ps.length := by
  induction ps generalizing n with
  | nil => cases h
  | cons p ps ih =>
    rw [getpschedinfoFrom] at h
    split at h
    · rcases List.mem_cons.mp h with rfl | h
      · simp
      · have := ih h
        simp only [List.length_cons]
        omega
    · rcases List.mem_append.mp h with h | h
      · have := storeProc_index h
        simp only [List.length_cons]
        omega
      · have := ih h
        simp only [List.length_cons]
        omega

theorem stored_getpschedinfoFrom_of_lt {n k : ℕ} (ps : List Proc) (r : Pschedinfo) (f : Field)
    (hk : k < n) : stored (getpschedinfoFrom ps n) r f k = r f k := by
  apply stored_of_index_ne
  intro s hs
  have := getpschedinfoFrom_index hs
  omega

/-- Without a process nothing but `inuse` of one entry changes. -/
theorem stored_getpschedinfoFrom_of_unused {ps : List Proc} (h : ∀ p ∈ ps, p.state = .UNUSED)
    (n : ℕ) (r : Pschedinfo) {f : Field} {k : ℕ} (hk : f ≠ .inuse ∨ k ≠ n) :
    stored (getpschedinfoFrom ps n) r f k = r f k := by
  induction ps generalizing r with
  | nil => rfl
  | cons p ps ih =>
    rw [getpschedinfoFrom, if_pos (h p List.mem_cons_self), stored_cons,
      ih fun q hq => h q (List.mem_cons_of_mem p hq)]
    exact Store.apply_of_ne r hk

/-- **The entry where the loop stands** ends in use exactly when there is a process left. -/
theorem stored_getpschedinfoFrom_inuse (ps : List Proc) (n : ℕ) (r : Pschedinfo) :
    stored (getpschedinfoFrom ps n) r .inuse n =
      if ps = [] then r .inuse n else if ∀ p ∈ ps, p.state = .UNUSED then 0 else 1 := by
  induction ps generalizing r with
  | nil => rfl
  | cons p ps ih =>
    rw [getpschedinfoFrom, if_neg (List.cons_ne_nil p ps)]
    by_cases hp : p.state = .UNUSED
    · rw [if_pos hp, stored_cons, ih]
      simp [hp, Store.apply]
      rintro rfl
      simp
    · rw [if_neg hp, stored_append, stored_getpschedinfoFrom_of_lt _ _ _ (Nat.lt_succ_self n)]
      simp [hp, storeProc, Store.apply]

/-! ### What a faithful report is -/

/-- The entry `k` tells of the process `q`. -/
def Faithful (q : Proc) (r : Pschedinfo) (k : ℕ) : Prop :=
  r .inuse k = (if q.state = .UNUSED then 0 else 1) ∧
    (r .inuse k = 1 →
      r .pid k = q.pid ∧ r .priority k = q.priority ∧ r .nice k = q.nice ∧ r .ticks k = q.ticks)

/-- The processes of the table: the numbers that a report has of each. -/
def processes (t : Table) : Multiset (ℤ × ℤ × ℤ × ℤ) :=
  (Finset.univ.filter fun i => (t i).state ≠ .UNUSED).val.map fun i =>
    ((t i).pid, (t i).priority, (t i).nice, (t i).ticks)

/-- The entries in use. -/
def entries (r : Pschedinfo) : Multiset (ℤ × ℤ × ℤ × ℤ) :=
  (Finset.univ.filter fun i : Slot => r .inuse i = 1).val.map fun i : Slot =>
    (r .pid i, r .priority i, r .nice i, r .ticks i)

/-- **Every entry tells the slot of its own index**, and so each process is reported once. -/
def Reported (t : Table) (r : Pschedinfo) : Prop :=
  (∀ i : Slot, Faithful (t i) r i) ∧ entries r = processes t

theorem entries_of_faithful {t : Table} {r : Pschedinfo} (h : ∀ i : Slot, Faithful (t i) r i) :
    entries r = processes t := by
  have hused : (Finset.univ.filter fun i : Slot => r .inuse i = 1) =
      Finset.univ.filter fun i => (t i).state ≠ .UNUSED := by
    apply Finset.filter_congr
    intro i _
    rw [(h i).1]
    split <;> simp_all
  rw [entries, processes, hused]
  apply Multiset.map_congr rfl
  intro i hi
  have hi : (t i).state ≠ .UNUSED := by simpa using hi
  obtain ⟨hpid, hpriority, hnice, hticks⟩ := (h i).2 (by rw [(h i).1, if_neg hi])
  rw [hpid, hpriority, hnice, hticks]

/-- `Faithful` for the slots of a list, from the entry `n` on. -/
def AllFaithful : List Proc → ℕ → Pschedinfo → Prop
  | [], _, _ => True
  | p :: ps, n, r => Faithful p r n ∧ AllFaithful ps (n + 1) r

/-- No process behind an unused slot, and what the structure held behind the first one is `0`. -/
def Packed : List Proc → ℕ → Pschedinfo → Prop
  | [], _, _ => True
  | p :: ps, n, r =>
    if p.state = .UNUSED then
      (∀ q ∈ ps, q.state = .UNUSED) ∧ ∀ k, n < k → k ≤ n + ps.length → r .inuse k = 0
    else Packed ps (n + 1) r

theorem allFaithful_iff (ps : List Proc) (n : ℕ) (r : Pschedinfo) :
    AllFaithful ps n r ↔ ∀ i p, ps[i]? = some p → Faithful p r (n + i) := by
  induction ps generalizing n with
  | nil => simp [AllFaithful]
  | cons q ps ih =>
    rw [AllFaithful, ih]
    constructor
    · rintro ⟨hq, hps⟩ i p hi
      cases i with
      | zero =>
        obtain rfl : q = p := by simpa using hi
        exact hq
      | succ i =>
        have := hps i p (by simpa using hi)
        rwa [Nat.add_assoc, Nat.add_comm 1 i] at this
    · intro h
      constructor
      · exact h 0 q (by simp)
      · intro i p hi
        have := h (i + 1) p (by simpa using hi)
        rwa [Nat.add_assoc, Nat.add_comm 1 i]

theorem packed_iff (ps : List Proc) (n : ℕ) (r : Pschedinfo) :
    Packed ps n r ↔ ∀ i j p q, i < j → ps[i]? = some p → ps[j]? = some q → p.state = .UNUSED →
      q.state = .UNUSED ∧ r .inuse (n + j) = 0 := by
  induction ps generalizing n with
  | nil => simp [Packed]
  | cons p₀ ps ih =>
    rw [Packed]
    split
    · -- the first slot is the unused one behind which nothing may be left
      rename_i hp₀
      constructor
      · rintro ⟨hunused, hold⟩ i j p q hij _ hj _
        obtain ⟨j, rfl⟩ : ∃ j', j = j' + 1 := ⟨j - 1, by omega⟩
        rw [List.getElem?_cons_succ] at hj
        have hlt : j < ps.length := (List.getElem?_eq_some_iff.mp hj).1
        exact ⟨hunused q (List.mem_of_getElem? hj), hold _ (by omega) (by omega)⟩
      · intro h
        constructor
        · intro q hq
          obtain ⟨j, hj⟩ := List.getElem?_of_mem hq
          exact (h 0 (j + 1) p₀ q (by omega) rfl (by simpa using hj) hp₀).1
        · intro k hk hkn
          obtain ⟨j, rfl⟩ : ∃ j, k = n + (j + 1) := ⟨k - n - 1, by omega⟩
          have hj : (p₀ :: ps)[j + 1]? = some (ps.get ⟨j, by omega⟩) := by simp
          exact (h 0 (j + 1) p₀ _ (by omega) rfl hj hp₀).2
    · rename_i hp₀
      rw [ih]
      constructor
      · intro h i j p q hij hi hj hp
        obtain ⟨j, rfl⟩ : ∃ j', j = j' + 1 := ⟨j - 1, by omega⟩
        cases i with
        | zero =>
          obtain rfl : p₀ = p := by simpa using hi
          exact absurd hp hp₀
        | succ i =>
          have := h i j p q (by omega) (by simpa using hi) (by simpa using hj) hp
          rwa [Nat.add_assoc, Nat.add_comm 1 j] at this
      · intro h i j p q hij hi hj hp
        have := h (i + 1) (j + 1) p q (by omega) (by simpa using hi) (by simpa using hj) hp
        rwa [Nat.add_assoc, Nat.add_comm 1 j]

theorem stored_storeProc_of_ne (p : Proc) (n : ℕ) (r : Pschedinfo) :
    ∀ k, n < k → stored (storeProc p n) r .inuse k = r .inuse k := by
  intro k hk
  apply stored_of_index_ne
  intro s hs
  have := storeProc_index hs
  omega

/-- Only the entries behind the current one count. -/
theorem packed_congr {ps : List Proc} {n : ℕ} {r r' : Pschedinfo}
    (h : ∀ k, n < k → r' .inuse k = r .inuse k) : Packed ps (n + 1) r' ↔ Packed ps (n + 1) r := by
  rw [packed_iff, packed_iff]
  have : ∀ j, r' .inuse (n + 1 + j) = r .inuse (n + 1 + j) := fun j => h _ (by omega)
  simp only [this]

/-- **The report of the slots that are left.** -/
theorem allFaithful_stored_iff (ps : List Proc) (n : ℕ) (r : Pschedinfo) :
    AllFaithful ps n (stored (getpschedinfoFrom ps n) r) ↔ Packed ps n r := by
  induction ps generalizing n r with
  | nil => simp [AllFaithful, Packed]
  | cons p ps ih =>
    rw [AllFaithful, Packed, getpschedinfoFrom]
    split
    · -- the index stays: what is stored next goes to the same entry
      rename_i hp
      rw [stored_cons]
      have hn : Store.apply r ⟨.inuse, n, 0⟩ .inuse n = 0 := by simp [Store.apply]
      have hne : ∀ k, k ≠ n → Store.apply r ⟨.inuse, n, 0⟩ .inuse k = r .inuse k :=
        fun k hk => Store.apply_of_ne r (.inr hk)
      generalize Store.apply r ⟨.inuse, n, 0⟩ = r' at hn hne
      constructor
      · rintro ⟨hentry, hrest⟩
        have hunused : ∀ q ∈ ps, q.state = .UNUSED := by
          by_contra hcon
          have hcons : ps ≠ [] := by
            rintro rfl
            simp at hcon
          have := hentry.1
          rw [stored_getpschedinfoFrom_inuse, if_neg hcons, if_neg hcon, if_pos hp] at this
          omega
        constructor
        · exact hunused
        · intro k hk hkn
          obtain ⟨j, rfl⟩ : ∃ j, k = n + 1 + j := ⟨k - n - 1, by omega⟩
          have hj : ps[j]? = some (ps.get ⟨j, by omega⟩) := List.getElem?_eq_getElem _
          have := ((allFaithful_iff ps (n + 1) _).mp hrest j _ hj).1
          rw [if_pos (hunused _ (List.mem_of_getElem? hj)),
            stored_getpschedinfoFrom_of_unused hunused _ _ (.inr (by omega)),
            hne _ (by omega)] at this
          exact this
      · rintro ⟨hunused, hold⟩
        constructor
        · have hzero : stored (getpschedinfoFrom ps n) r' .inuse n = 0 := by
            rw [stored_getpschedinfoFrom_inuse, hn, if_pos hunused, ite_self]
          refine ⟨by rw [hzero, if_pos hp], fun h => ?_⟩
          rw [hzero] at h
          omega
        · rw [allFaithful_iff]
          intro j q hj
          have hlt : j < ps.length := (List.getElem?_eq_some_iff.mp hj).1
          have hzero : stored (getpschedinfoFrom ps n) r' .inuse (n + 1 + j) = 0 := by
            rw [stored_getpschedinfoFrom_of_unused hunused _ _ (.inr (by omega)),
              hne _ (by omega)]
            exact hold _ (by omega) (by omega)
          refine ⟨by rw [hzero, if_pos (hunused q (List.mem_of_getElem? hj))], fun h => ?_⟩
          rw [hzero] at h
          omega
    · rename_i hp
      rw [stored_append, ih, packed_congr (stored_storeProc_of_ne p n r)]
      apply and_iff_right
      have hkept : ∀ f, stored (getpschedinfoFrom ps (n + 1)) (stored (storeProc p n) r) f n =
          stored (storeProc p n) r f n :=
        fun f => stored_getpschedinfoFrom_of_lt ps _ f (Nat.lt_succ_self n)
      simp only [Faithful, hkept, if_neg hp]
      simp [storeProc, Store.apply]

/-- The condition on a table and on what the structure held before. -/
def UsedFirst (t : Table) (old : Pschedinfo) : Prop :=
  ∀ i j : Slot, i < j → (t i).state = .UNUSED → (t j).state = .UNUSED ∧ old .inuse j = 0

theorem allFaithful_table_iff {t : Table} {r : Pschedinfo} :
    AllFaithful (List.ofFn t) 0 r ↔ ∀ i : Slot, Faithful (t i) r i := by
  rw [allFaithful_iff]
  constructor
  · intro h i
    have := h i (t i) (by simp)
    rwa [Nat.zero_add] at this
  · intro h i p hi
    obtain ⟨hlt, rfl⟩ := List.getElem?_eq_some_iff.mp hi
    rw [Nat.zero_add, List.getElem_ofFn]
    exact h _

theorem packed_table_iff {t : Table} {old : Pschedinfo} :
    Packed (List.ofFn t) 0 old ↔ UsedFirst t old := by
  rw [packed_iff]
  constructor
  · intro h i j hij hi
    have := h i j (t i) (t j) hij (by simp) (by simp) hi
    rwa [Nat.zero_add] at this
  · intro h i j p q hij hi hj hp
    obtain ⟨hilt, rfl⟩ := List.getElem?_eq_some_iff.mp hi
    obtain ⟨hjlt, rfl⟩ := List.getElem?_eq_some_iff.mp hj
    rw [List.getElem_ofFn] at hp ⊢
    rw [Nat.zero_add]
    exact h ⟨i, by simpa using hilt⟩ ⟨j, by simpa using hjlt⟩ hij hp

/-- **When `getpschedinfo` reports the table**: the slots in use come first, and the structure held
`0` in `inuse` behind the first entry that is not. -/
theorem reported_getpschedinfo_iff (k : Kernel) (old : Pschedinfo) :
    Reported k.table (stored (getpschedinfo k) old) ↔ UsedFirst k.table old := by
  rw [← packed_table_iff, ← allFaithful_stored_iff, allFaithful_table_iff]
  constructor
  · exact fun h => h.1
  · exact fun h => ⟨h, entries_of_faithful h⟩

/-! ### The addresses -/

/-- The four bytes at `addr` lie below `sz`, as the kernel checks it. -/
def WordBelow (sz addr : BitVec 32) : Prop :=
  addr < sz ∧ addr + 4 ≤ sz

instance (sz addr : BitVec 32) : Decidable (WordBelow sz addr) :=
  inferInstanceAs (Decidable (_ ∧ _))

/-- The pointer argument. -/
def UserProc.argument (p : UserProc) : BitVec 32 := p.word (p.esp + 4)

/-- The whole structure lies in the memory of the process. -/
def UserProc.Fits (p : UserProc) : Prop :=
  p.argument.toNat + sizeofPschedinfo ≤ p.sz.toNat

instance (p : UserProc) : Decidable p.Fits :=
  inferInstanceAs (Decidable (_ ≤ _))

/-- Every byte written is the process's, and without room for the structure the call is refused. -/
def StoresInside (p : UserProc) (k : Kernel) : Prop :=
  (∀ addr ∈ written p k, addr < p.sz) ∧
    (¬p.Fits → sys_getschedstate p k = none ∧ written p k = [])


theorem argint_zero (p : UserProc) :
    argint p 0 = if WordBelow p.sz (p.esp + 4) then some p.argument else none := by
  have haddr : p.esp + 4 + 4 * BitVec.ofNat 32 0 = p.esp + 4 := by simp
  rw [argint, haddr, fetchint, UserProc.argument]
  by_cases hbelow : WordBelow p.sz (p.esp + 4)
  · rw [if_pos hbelow, if_neg]
    rintro (h | h)
    · exact BitVec.not_lt.mpr h hbelow.1
    · exact BitVec.not_le.mpr h hbelow.2
  · rw [if_neg hbelow, if_pos]
    by_contra hcon
    push Not at hcon
    exact hbelow ⟨BitVec.not_le.mp hcon.1, BitVec.not_lt.mp hcon.2⟩

/-- **What the check of the call lets through**: four bytes, where the structure has 1280. -/
theorem argptr_zero (p : UserProc) :
    argptr p 0 sizeofPointer =
      if WordBelow p.sz (p.esp + 4) ∧ WordBelow p.sz p.argument then some p.argument else none := by
  have hsize : BitVec.ofInt 32 sizeofPointer = 4 := by decide
  have hpos : ¬sizeofPointer < 0 := by decide
  rw [argptr, argint_zero]
  by_cases hword : WordBelow p.sz (p.esp + 4)
  · rw [if_pos hword]
    by_cases hbelow : WordBelow p.sz p.argument
    · rw [if_pos ⟨hword, hbelow⟩]
      show (if _ then none else some p.argument) = some p.argument
      rw [hsize, if_neg]
      rintro (h | h | h)
      · exact hpos h
      · exact BitVec.not_lt.mpr h hbelow.1
      · exact BitVec.not_le.mpr h hbelow.2
    · rw [if_neg fun h => hbelow h.2]
      show (if _ then none else some p.argument) = none
      rw [hsize, if_pos]
      by_contra hcon
      push Not at hcon
      exact hbelow ⟨BitVec.not_le.mp hcon.2.1, BitVec.not_lt.mp hcon.2.2⟩
  · rw [if_neg hword, if_neg fun h => hword h.1]

theorem sys_getschedstate_eq (p : UserProc) (k : Kernel) :
    sys_getschedstate p k =
      if WordBelow p.sz (p.esp + 4) ∧ WordBelow p.sz p.argument ∧ p.argument ≠ 0 then
        some (p.argument, getpschedinfo k)
      else none := by
  rw [sys_getschedstate, argptr_zero]
  by_cases hchecked : WordBelow p.sz (p.esp + 4) ∧ WordBelow p.sz p.argument
  · rw [if_pos hchecked]
    show (if p.argument = 0 then none else some (p.argument, getpschedinfo k)) = _
    by_cases hnull : p.argument = 0
    · rw [if_pos hnull, if_neg fun h => h.2.2 hnull]
    · rw [if_neg hnull, if_pos ⟨hchecked.1, hchecked.2, hnull⟩]
  · rw [if_neg hchecked, if_neg fun h => hchecked ⟨h.1, h.2.1⟩]

theorem written_of_refused {p : UserProc} {k : Kernel} (h : sys_getschedstate p k = none) :
    written p k = [] := by
  rw [written, h]

/-- The stores stay inside the structure. -/
theorem getpschedinfo_offset {k : Kernel} {s : Store} (h : s ∈ getpschedinfo k) :
    s.field.offset + 4 * s.index + 4 ≤ sizeofPschedinfo := by
  have hindex := (getpschedinfoFrom_index h).2
  rw [List.length_ofFn] at hindex
  cases hf : s.field <;> simp only [Field.offset, sizeofPschedinfo, NPROC] at hindex ⊢ <;> omega

theorem addresses_lt {p : UserProc} {k : Kernel} (hfits : p.Fits) {s : Store}
    (hs : s ∈ getpschedinfo k) {addr : BitVec 32} (ha : addr ∈ s.addresses p.argument) :
    addr < p.sz := by
  have hoffset := getpschedinfo_offset hs
  obtain ⟨b, hb, rfl⟩ := List.mem_map.mp ha
  rw [List.mem_range] at hb
  rw [UserProc.Fits] at hfits
  have hsz := p.sz.isLt
  rw [BitVec.lt_def, BitVec.toNat_add, BitVec.toNat_ofNat, Nat.mod_eq_of_lt, Nat.mod_eq_of_lt]
  · omega
  · omega
  · rw [Nat.mod_eq_of_lt] <;> omega

/-! ### The two results -/

/-- **When a successful call reports the table.** -/
theorem getschedstate_reports_iff (p : UserProc) (k : Kernel) (old : Pschedinfo) (psched : BitVec 32)
    (stores : List Store) (h : sys_getschedstate p k = some (psched, stores)) :
    Reported k.table (stored stores old) ↔ UsedFirst k.table old := by
  rw [sys_getschedstate_eq] at h
  split at h
  · obtain ⟨-, rfl⟩ := Prod.mk.inj (Option.some.inj h)
    exact reported_getpschedinfo_iff k old
  · cases h

/-- A process with one page whose stack holds the pointer `arg`. -/
def onePage (arg : BitVec 32) : UserProc := ⟨4096, 4000, fun _ => arg⟩

/-- A table with processes in the slots of `used`. -/
def tableOf (used : List Slot) : Kernel :=
  ⟨fun i => ⟨if i ∈ used then .RUNNABLE else .UNUSED, if i ∈ used then i + 1 else 0, none, none, 0, 0, 0,
    0, 0, 0⟩, 4, 0, 0⟩

theorem getschedstate_reports_first :
    sys_getschedstate (onePage 64) (tableOf [0]) = some (64, getpschedinfo (tableOf [0])) ∧
      Reported (tableOf [0]).table (stored (getpschedinfo (tableOf [0])) fun _ _ => 0) := by
  have hcall : sys_getschedstate (onePage 64) (tableOf [0]) =
      some (64, getpschedinfo (tableOf [0])) := rfl
  refine ⟨hcall, (getschedstate_reports_iff _ _ _ _ _ hcall).mpr fun i j hij _ => ⟨?_, rfl⟩⟩
  have hj : j ∉ [(0 : Slot)] := by
    rw [List.mem_singleton]
    rintro rfl
    exact absurd hij (Fin.not_lt_zero i)
  show (if j ∈ [(0 : Slot)] then ProcState.RUNNABLE else .UNUSED) = .UNUSED
  rw [if_neg hj]

/-- With an unused slot before a process, the entry of the unused slot tells the process. -/
theorem getschedstate_reports_fails :
    ¬∀ (p : UserProc) (k : Kernel) (old : Pschedinfo) (psched : BitVec 32) (stores : List Store),
      sys_getschedstate p k = some (psched, stores) → Reported k.table (stored stores old) := by
  intro h
  have hreported := h (onePage 64) (tableOf [0, 2]) (fun _ _ => 0) 64 _ rfl
  have hpacked := (reported_getpschedinfo_iff _ _).mp hreported 1 2 (by decide) (by decide)
  exact absurd hpacked.1 (by decide)

/-- **When a call stays inside the memory of the process.** -/
theorem getschedstate_inside_iff (p : UserProc) (k : Kernel) :
    StoresInside p k ↔
      ¬WordBelow p.sz (p.esp + 4) ∨ ¬WordBelow p.sz p.argument ∨ p.argument = 0 ∨ p.Fits := by
  constructor
  · rintro ⟨-, hrefused⟩
    by_contra hcon
    push Not at hcon
    obtain ⟨hword, hbelow, hnull, hfits⟩ := hcon
    have := (hrefused hfits).1
    rw [sys_getschedstate_eq, if_pos ⟨hword, hbelow, hnull⟩] at this
    cases this
  · intro h
    by_cases hpassed : WordBelow p.sz (p.esp + 4) ∧ WordBelow p.sz p.argument ∧ p.argument ≠ 0
    · have hfits : p.Fits := by tauto
      constructor
      · intro addr haddr
        rw [written, sys_getschedstate_eq, if_pos hpassed] at haddr
        obtain ⟨s, hs, ha⟩ := List.mem_flatMap.mp haddr
        exact addresses_lt hfits hs ha
      · exact fun hcon => absurd hfits hcon
    · have hnone : sys_getschedstate p k = none := by rw [sys_getschedstate_eq, if_neg hpassed]
      constructor
      · intro addr haddr
        rw [written_of_refused hnone] at haddr
        cases haddr
      · exact fun _ => ⟨hnone, written_of_refused hnone⟩

/-- The check counts four bytes: a pointer to the last word of the memory passes it. -/
theorem getschedstate_inside_fails : ¬∀ (p : UserProc) (k : Kernel), StoresInside p k := by
  intro h
  have hcall : sys_getschedstate (onePage 4092) (tableOf [0]) ≠ none := by
    rw [sys_getschedstate_eq, if_pos (by decide)]
    exact Option.some_ne_none _
  exact hcall ((h (onePage 4092) (tableOf [0])).2 (by decide)).1

end OperatingSystems.Sched
