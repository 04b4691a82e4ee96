import Mathlib

/-!
# `getlastcat`: the name of the last `cat`

The kernel keeps the last argument of `cat` in an array of 256 characters, and a system call copies it to a
buffer of the caller.  Addresses have 32 bits; the memory of the caller is a function of them.

* **`safestrcpy`** — the bytes that are stored, one behind the other.
* **`sys_getlastcat`** — what the call returns and what it writes.
* **`staysInside_iff`** — when it writes only to the memory of the caller.
-/

namespace OperatingSystems.Lastcat

/-! ### Strings -/

abbrev Str := List UInt8

/-- The bytes of a string literal. -/
def bytes (cs : List Char) : Str := cs.map Char.toUInt8

/-- The string in an array of characters ends before the first zero. -/
def cstr (a : List UInt8) : Str := a.takeWhile (· != 0)

def strlen (a : List UInt8) : ℕ := (cstr a).length

/-- The bytes that `safestrcpy` stores from its target on, for a string and a count. -/
def safestrcpy : Str → ℕ → List UInt8
  | _, 0 => []
  | _, 1 => [0]
  -- the terminator is copied, and another one follows
  | [], _ + 2 => [0, 0]
  | c :: t, n + 2 => c :: safestrcpy t (n + 1)

/-- `last_cat_arg`, as it is initialised. -/
def last_cat_arg : List UInt8 :=
  bytes ['C', 'a', 't', ' ', 'h', 'a', 's', ' ', 'n', 'o', 't', ' ', 'y', 'e', 't', ' ', 'b', 'e', 'e', 'n', ' ',
    'c', 'a', 'l', 'l', 'e', 'd'] ++ List.replicate 229 0

/-! ### The arguments of a call -/

/-- The process that makes the call: its size, its memory and its stack pointer. -/
structure Caller where
  sz : UInt32
  mem : UInt32 → UInt8
  esp : UInt32

/-- A number of type `int` after a conversion from 32 bits. -/
def toInt (n : ℕ) : ℤ := if n % 2 ^ 32 < 2 ^ 31 then (n % 2 ^ 32 : ℕ) else (n % 2 ^ 32 : ℕ) - 2 ^ 32

def fetchint (p : Caller) (addr : UInt32) : Option UInt32 :=
  if addr ≥ p.sz ∨ addr + 4 > p.sz then none
  else some ((p.mem addr).toUInt32 + (p.mem (addr + 1)).toUInt32 * 2 ^ 8 +
    (p.mem (addr + 2)).toUInt32 * 2 ^ 16 + (p.mem (addr + 3)).toUInt32 * 2 ^ 24)

/-- The loop of `fetchstr`, with this many bytes before `ep`. -/
def fetchstrFrom (mem : UInt32 → UInt8) : ℕ → UInt32 → Option ℕ
  | 0, _ => none
  | n + 1, s => if mem s = 0 then some 0 else (fetchstrFrom mem n (s + 1)).map (· + 1)

def fetchstr (p : Caller) (addr : UInt32) : ℤ :=
  if addr ≥ p.sz then -1
  else
    match fetchstrFrom p.mem (p.sz - addr).toNat addr with
    | some n => toInt n
    | none => -1

def argint (p : Caller) (n : UInt32) : Option UInt32 := fetchint p (p.esp + 4 + 4 * n)

/-- `argstr`: the pointer, where the string ends inside the process. -/
def argstr (p : Caller) (n : UInt32) : Option UInt32 :=
  match argint p n with
  | none => none
  | some addr => if fetchstr p addr < 0 then none else some addr

/-! ### The call -/

/-- The places that are written to when these bytes are stored from `s` on. -/
def stores (s : UInt32) (bs : List UInt8) : List (UInt32 × UInt8) :=
  bs.mapIdx fun i b => (s + UInt32.ofNat i, b)

/-- **`sys_getlastcat`**: the result, and the bytes written to memory. -/
def sys_getlastcat (p : Caller) (last_cat_arg : List UInt8) : ℤ × List (UInt32 × UInt8) :=
  match argstr p 0 with
  | none => (-1, [])
  | some buffer =>
    if buffer = 0 then (-1, [])
    else (0, stores buffer (safestrcpy (cstr last_cat_arg) (strlen last_cat_arg + 1)))

/-- The stored name and its terminator fit between the pointer and the end of the process. -/
def Fits (p : Caller) (buffer : UInt32) (last_cat_arg : List UInt8) : Prop :=
  buffer.toNat + strlen last_cat_arg + 1 ≤ p.sz.toNat

/-- **Only the memory of the caller is written to**, and none at all, with result -1, when the name does not
fit there. -/
def StaysInside (p : Caller) (last_cat_arg : List UInt8) : Prop :=
  (∀ w ∈ (sys_getlastcat p last_cat_arg).2, w.1 < p.sz) ∧
    ∀ buffer, argint p 0 = some buffer → ¬Fits p buffer last_cat_arg →
      sys_getlastcat p last_cat_arg = (-1, [])

/-! ### What is stored -/

/-- Of a string that fits, all characters and one terminator are stored. -/
theorem safestrcpy_full (t : Str) : safestrcpy t (t.length + 1) = t ++ [0] := by
  induction t with
  | nil => rfl
  | cons c t ih =>
    show c :: safestrcpy t (t.length + 1) = c :: (t ++ [0])
    rw [ih]

theorem mem_stores {s : UInt32} {bs : List UInt8} {a : UInt32} :
    (∃ b, (a, b) ∈ stores s bs) ↔ ∃ i < bs.length, a = s + UInt32.ofNat i := by
  unfold stores
  constructor
  · intro ⟨b, h⟩
    obtain ⟨i, hi, heq⟩ := List.mem_mapIdx.mp h
    exact ⟨i, hi, (congrArg Prod.fst heq).symm⟩
  · intro ⟨i, hi, heq⟩
    exact ⟨bs[i], List.mem_mapIdx.mpr ⟨i, hi, by rw [heq]⟩⟩

/-- The string is found only before the end of the process. -/
theorem lt_sz_of_fetchstr {p : Caller} {addr : UInt32} (h : ¬fetchstr p addr < 0) : addr < p.sz := by
  by_contra hge
  have hfail : fetchstr p addr = -1 := if_pos (UInt32.not_lt.mp hge)
  rw [hfail] at h
  exact h (by decide)

theorem fetchstrFrom_eq_none_iff {mem : UInt32 → UInt8} {n : ℕ} {s : UInt32} :
    fetchstrFrom mem n s = none ↔ ∀ i < n, mem (s + UInt32.ofNat i) ≠ 0 := by
  induction n generalizing s with
  | zero => exact iff_of_true rfl fun i hi => absurd hi (Nat.not_lt_zero i)
  | succ n ih =>
    have hzero : s + UInt32.ofNat 0 = s := UInt32.add_zero s
    have hnext : ∀ i, s + UInt32.ofNat (i + 1) = s + 1 + UInt32.ofNat i := by
      intro i
      rw [Nat.add_comm, UInt32.ofNat_add, ← UInt32.add_assoc]
      rfl
    rw [Nat.forall_lt_succ_left, hzero]
    simp only [hnext]
    unfold fetchstrFrom
    by_cases hend : mem s = 0
    · rw [if_pos hend]
      exact iff_of_false (fun h => by cases h) fun h => h.1 hend
    · rw [if_neg hend, Option.map_eq_none_iff, ih, and_iff_right hend]

theorem fetchstrFrom_lt {mem : UInt32 → UInt8} {n k : ℕ} {s : UInt32}
    (h : fetchstrFrom mem n s = some k) : k < n := by
  induction n generalizing s k with
  | zero => cases h
  | succ n ih =>
    unfold fetchstrFrom at h
    split at h
    · rw [← Option.some.inj h]
      exact Nat.succ_pos n
    · obtain ⟨k', hk', heq⟩ := Option.map_eq_some_iff.mp h
      rw [← heq]
      exact Nat.succ_lt_succ (ih hk')

/-- Below `KERNBASE` a string is missing only where no byte up to the end of the process is zero. -/
theorem fetchstr_neg_iff {p : Caller} {addr : UInt32} (hsz : p.sz.toNat ≤ 2 ^ 31) :
    fetchstr p addr < 0 ↔ ∀ i < (p.sz - addr).toNat, addr < p.sz → p.mem (addr + UInt32.ofNat i) ≠ 0 := by
  unfold fetchstr
  by_cases hge : addr ≥ p.sz
  · rw [if_pos hge]
    exact iff_of_true (by decide) fun i _ hlt => absurd hge (UInt32.not_le.mpr hlt)
  · have hlt : addr < p.sz := UInt32.not_le.mp hge
    have hdist : (p.sz - addr).toNat ≤ p.sz.toNat := by
      rw [UInt32.toNat_sub_of_le _ _ (UInt32.le_of_lt hlt)]
      omega
    have hall : (∀ i < (p.sz - addr).toNat, addr < p.sz → p.mem (addr + UInt32.ofNat i) ≠ 0) ↔
        fetchstrFrom p.mem (p.sz - addr).toNat addr = none := by
      rw [fetchstrFrom_eq_none_iff]
      exact forall₂_congr fun _ _ => forall_prop_of_true hlt
    rw [if_neg hge, hall]
    cases hfrom : fetchstrFrom p.mem (p.sz - addr).toNat addr with
    | none => exact iff_of_true (by decide) rfl
    | some n =>
      have hn := fetchstrFrom_lt hfrom
      refine iff_of_false ?_ fun h => by cases h
      show ¬toInt n < 0
      unfold toInt
      rw [Nat.mod_eq_of_lt (by omega), if_pos (by omega)]
      omega

theorem argstr_eq_some_iff {p : Caller} {n buffer : UInt32} :
    argstr p n = some buffer ↔ argint p n = some buffer ∧ ¬fetchstr p buffer < 0 := by
  unfold argstr
  cases argint p n with
  | none => exact iff_of_false (fun h => by cases h) fun h => by cases h.1
  | some addr =>
    dsimp only
    by_cases hneg : fetchstr p addr < 0
    · rw [if_pos hneg]
      refine iff_of_false (fun h => by cases h) ?_
      intro ⟨heq, h⟩
      rw [← Option.some.inj heq] at h
      exact h hneg
    · rw [if_neg hneg]
      constructor
      · intro heq
        rw [← Option.some.inj heq]
        exact ⟨rfl, hneg⟩
      · exact fun h => h.1

/-- A run of addresses from inside the process stays inside if and only if its end does. -/
theorem stores_lt_iff {p : Caller} {s : UInt32} {bs : List UInt8} (hs : s < p.sz) :
    (∀ w ∈ stores s bs, w.1 < p.sz) ↔ s.toNat + bs.length ≤ p.sz.toNat := by
  have hlt : s.toNat < p.sz.toNat := UInt32.lt_iff_toNat_lt.mp hs
  have hsz : p.sz.toNat < 2 ^ 32 := p.sz.toNat_lt
  have haddr : ∀ i, s.toNat + i < 2 ^ 32 → (s + UInt32.ofNat i).toNat = s.toNat + i := by
    intro i hi
    rw [UInt32.toNat_add, UInt32.toNat_ofNat', Nat.add_mod_mod, Nat.mod_eq_of_lt hi]
  constructor
  · intro h
    by_contra hlong
    -- the first address behind the process is written to
    have hwritten : ∃ b, (p.sz, b) ∈ stores s bs := by
      refine mem_stores.mpr ⟨p.sz.toNat - s.toNat, by omega, ?_⟩
      apply UInt32.toNat_inj.mp
      rw [haddr _ (by omega)]
      omega
    obtain ⟨b, hb⟩ := hwritten
    exact absurd (h _ hb) (UInt32.lt_irrefl _)
  · intro h w hw
    obtain ⟨i, hi, heq⟩ := mem_stores.mp ⟨w.2, hw⟩
    rw [heq, UInt32.lt_iff_toNat_lt, haddr i (by omega)]
    omega

theorem sys_getlastcat_none {p : Caller} (last_cat_arg : List UInt8) (h : argstr p 0 = none) :
    sys_getlastcat p last_cat_arg = (-1, []) := by
  unfold sys_getlastcat
  rw [h]

theorem sys_getlastcat_null {p : Caller} (last_cat_arg : List UInt8) (h : argstr p 0 = some 0) :
    sys_getlastcat p last_cat_arg = (-1, []) := by
  unfold sys_getlastcat
  rw [h]
  rfl

theorem sys_getlastcat_some {p : Caller} {buffer : UInt32} (last_cat_arg : List UInt8)
    (h : argstr p 0 = some buffer) (hnull : buffer ≠ 0) :
    sys_getlastcat p last_cat_arg = (0, stores buffer (cstr last_cat_arg ++ [0])) := by
  unfold sys_getlastcat strlen
  rw [h, ← safestrcpy_full]
  exact if_neg hnull

/-- **When the call stays inside its caller**: where the pointer is null, or has no end of a string behind
it, or leaves room for the name. -/
theorem staysInside_iff (p : Caller) (last_cat_arg : List UInt8) :
    StaysInside p last_cat_arg ↔
      ∀ buffer, argint p 0 = some buffer →
        buffer = 0 ∨ fetchstr p buffer < 0 ∨ Fits p buffer last_cat_arg := by
  cases harg : argstr p 0 with
  | none =>
    have hret := sys_getlastcat_none last_cat_arg harg
    refine iff_of_true ⟨?_, fun _ _ _ => hret⟩ ?_
    · rw [hret]
      exact fun w hw => absurd hw List.not_mem_nil
    · intro buffer hbuffer
      by_contra hno
      rw [not_or, not_or] at hno
      rw [argstr_eq_some_iff.mpr ⟨hbuffer, hno.2.1⟩] at harg
      cases harg
  | some buffer =>
    obtain ⟨hint, hstr⟩ := argstr_eq_some_iff.mp harg
    have honly : (∀ buffer', argint p 0 = some buffer' →
        buffer' = 0 ∨ fetchstr p buffer' < 0 ∨ Fits p buffer' last_cat_arg) ↔
        buffer = 0 ∨ Fits p buffer last_cat_arg := by
      constructor
      · exact fun h => (h buffer hint).imp_right fun h => h.resolve_left hstr
      · intro h buffer' hbuffer'
        rw [hint] at hbuffer'
        rw [← Option.some.inj hbuffer']
        exact h.imp_right .inr
    rw [honly]
    by_cases hnull : buffer = 0
    · rw [hnull] at harg
      have hret := sys_getlastcat_null last_cat_arg harg
      refine iff_of_true ⟨?_, fun _ _ _ => hret⟩ (.inl hnull)
      rw [hret]
      exact fun w hw => absurd hw List.not_mem_nil
    · have hret := sys_getlastcat_some last_cat_arg harg hnull
      have hlength : (cstr last_cat_arg ++ [0]).length = strlen last_cat_arg + 1 := List.length_append
      have hinside : (∀ w ∈ (sys_getlastcat p last_cat_arg).2, w.1 < p.sz) ↔ Fits p buffer last_cat_arg := by
        rw [hret]
        show (∀ w ∈ stores buffer (cstr last_cat_arg ++ [0]), w.1 < p.sz) ↔ _
        rw [stores_lt_iff (lt_sz_of_fetchstr hstr), hlength]
        exact Iff.rfl
      unfold StaysInside
      rw [hinside, or_iff_right hnull]
      refine and_iff_left_of_imp fun hfits buffer' hbuffer' hno => ?_
      rw [hint] at hbuffer'
      rw [Option.some.inj hbuffer'] at hfits
      exact absurd hfits hno

/-- A process of one page whose buffer is its last byte, which is zero. -/
def lastByte : Caller where
  sz := 4096
  mem := fun a => if a = 4 then 255 else if a = 5 then 15 else 0
  esp := 0

/-- The name is written behind the end of the process. -/
theorem not_staysInside_lastByte : ¬StaysInside lastByte last_cat_arg := by
  intro h
  have hwritten : (4096, 97) ∈ (sys_getlastcat lastByte last_cat_arg).2 := by decide
  exact absurd (h.1 _ hwritten) (by decide)

end OperatingSystems.Lastcat
