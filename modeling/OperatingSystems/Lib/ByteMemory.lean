import Mathlib

/-!
# A byte memory that remembers what was stored

`Mem` is a total map from addresses to bytes together with the list of ranges stored to so far (the
newest first).  Every write goes through `store`, so a statement about the bytes a piece of code
writes is a statement about that list, and a frame fact is "no range of the list covers `x`".

Numbers are little-endian: `leNat n f` reads `n` bytes, `leByte v` are the bytes of `v`.
-/

namespace OperatingSystems.ByteMemory

/-! ### Little-endian numbers -/

/-- The number whose `n` little-endian bytes are `f 0, …, f (n - 1)`. -/
def leNat : ℕ → (ℕ → UInt8) → ℕ
  | 0, _ => 0
  | n + 1, f => (f 0).toNat + 256 * leNat n (fun i => f (i + 1))

/-- Byte `i` of the number `v`. -/
def leByte (v i : ℕ) : UInt8 := UInt8.ofNat (v / 256 ^ i)

theorem leByte_zero_toNat (v : ℕ) : (leByte v 0).toNat = v % 256 := by
  simp [leByte]

theorem leByte_succ (v i : ℕ) : leByte v (i + 1) = leByte (v / 256) i := by
  rw [leByte, leByte, Nat.div_div_eq_div_mul, pow_succ']

/-- **Reading back a number** gives it modulo the width. -/
theorem leNat_leByte (n v : ℕ) : leNat n (leByte v) = v % 256 ^ n := by
  induction n generalizing v with
  | zero => simp [leNat, Nat.mod_one]
  | succ n ih =>
    rw [leNat, leByte_zero_toNat]
    simp only [leByte_succ]
    rw [ih (v / 256), pow_succ', Nat.mod_mul]

theorem leNat_congr {n : ℕ} {f g : ℕ → UInt8} (h : ∀ i, i < n → f i = g i) :
    leNat n f = leNat n g := by
  induction n generalizing f g with
  | zero => rfl
  | succ n ih =>
    rw [leNat, leNat, h 0 (by omega), ih (fun i hi => h (i + 1) (by omega))]

theorem leNat_lt (n : ℕ) (f : ℕ → UInt8) : leNat n f < 256 ^ n := by
  induction n generalizing f with
  | zero => simp [leNat]
  | succ n ih =>
    have hf : (f 0).toNat < 256 := (f 0).toNat_lt
    have hr := ih (fun i => f (i + 1))
    rw [leNat, pow_succ']
    omega

/-- **The bytes of a number that was read** are the ones it was read from. -/
theorem leByte_leNat {n i : ℕ} {f : ℕ → UInt8} (hi : i < n) : leByte (leNat n f) i = f i := by
  induction n generalizing f i with
  | zero => omega
  | succ n ih =>
    have hf : (f 0).toNat < 256 := (f 0).toNat_lt
    cases i with
    | zero =>
      rw [leNat, leByte, pow_zero, Nat.div_one]
      apply UInt8.toNat_inj.mp
      rw [UInt8.toNat_ofNat']
      omega
    | succ i =>
      rw [leNat, leByte_succ, Nat.add_mul_div_left _ _ (by decide), Nat.div_eq_of_lt hf, Nat.zero_add]
      exact ih (by omega)

/-! ### The memory and its stores -/

/-- Bytes by address, and the ranges `(address, length)` stored to so far, newest first. -/
structure Mem where
  byte : ℕ → UInt8
  stores : List (ℕ × ℕ)

namespace Mem

/-- Store `n` bytes `f 0, …, f (n - 1)` at address `a`. -/
def store (m : Mem) (a n : ℕ) (f : ℕ → UInt8) : Mem where
  byte := fun x => if a ≤ x ∧ x < a + n then f (x - a) else m.byte x
  stores := (a, n) :: m.stores

/-- A 32-bit number at `a`. -/
def u32 (m : Mem) (a : ℕ) : ℕ := leNat 4 (fun i => m.byte (a + i))

/-- A 64-bit number at `a`. -/
def u64 (m : Mem) (a : ℕ) : ℕ := leNat 8 (fun i => m.byte (a + i))

/-- Store the low 32 bits of `v` at `a`. -/
def put32 (m : Mem) (a v : ℕ) : Mem := m.store a 4 (leByte v)

/-- Store the low 64 bits of `v` at `a`. -/
def put64 (m : Mem) (a v : ℕ) : Mem := m.store a 8 (leByte v)

/-- Copy `n` bytes of `src` from address `from_` to address `to_` of `m`. -/
def copyFrom (m src : Mem) (to_ from_ n : ℕ) : Mem :=
  m.store to_ n (fun i => src.byte (from_ + i))

/-- Store the bytes of a buffer at `a`. -/
def putBytes (m : Mem) (a : ℕ) (bs : List UInt8) : Mem :=
  m.store a bs.length (fun i => bs.getD i 0)

/-- The `n` bytes from `a` on. -/
def bytes (m : Mem) (a n : ℕ) : List UInt8 := (List.range n).map (fun i => m.byte (a + i))

theorem store_byte_in (m : Mem) {a n x : ℕ} (f : ℕ → UInt8) (h : a ≤ x) (h' : x < a + n) :
    (m.store a n f).byte x = f (x - a) := by
  simp [store, h, h']

theorem store_byte_out (m : Mem) {a n x : ℕ} (f : ℕ → UInt8) (h : x < a ∨ a + n ≤ x) :
    (m.store a n f).byte x = m.byte x := by
  have hn : ¬(a ≤ x ∧ x < a + n) := by omega
  simp only [store, if_neg hn]

theorem u32_congr {m m' : Mem} {a b : ℕ} (h : ∀ i, i < 4 → m'.byte (a + i) = m.byte (b + i)) :
    m'.u32 a = m.u32 b :=
  leNat_congr h

theorem u64_congr {m m' : Mem} {a b : ℕ} (h : ∀ i, i < 8 → m'.byte (a + i) = m.byte (b + i)) :
    m'.u64 a = m.u64 b :=
  leNat_congr h

theorem bytes_congr {m m' : Mem} {a b n : ℕ}
    (h : ∀ i, i < n → m'.byte (a + i) = m.byte (b + i)) : m'.bytes a n = m.bytes b n := by
  apply List.map_congr_left
  intro i hi
  exact h i (List.mem_range.mp hi)

theorem bytes_length (m : Mem) (a n : ℕ) : (m.bytes a n).length = n := by
  simp [bytes]

theorem bytes_add (m : Mem) (a n k : ℕ) : m.bytes a (n + k) = m.bytes a n ++ m.bytes (a + n) k := by
  simp only [bytes, List.range_add, List.map_append, List.map_map, Function.comp_def, Nat.add_assoc]

theorem getElem_bytes (m : Mem) (a n i : ℕ) (h : i < (m.bytes a n).length) :
    (m.bytes a n)[i] = m.byte (a + i) := by
  simp [bytes]

theorem u32_lt (m : Mem) (a : ℕ) : m.u32 a < 2 ^ 32 := by
  have h := leNat_lt 4 (fun i => m.byte (a + i))
  simpa [u32] using h

/-- A stored 32-bit number reads back modulo `2 ^ 32`. -/
theorem u32_put32 (m : Mem) (a v : ℕ) : (m.put32 a v).u32 a = v % 2 ^ 32 := by
  have h : ∀ i, i < 4 → (m.put32 a v).byte (a + i) = leByte v i := by
    intro i hi
    rw [put32, store_byte_in m _ (by omega) (by omega), Nat.add_sub_cancel_left]
  rw [u32, leNat_congr h, leNat_leByte]
  norm_num

/-- A stored 64-bit number reads back modulo `2 ^ 64`. -/
theorem u64_put64 (m : Mem) (a v : ℕ) : (m.put64 a v).u64 a = v % 2 ^ 64 := by
  have h : ∀ i, i < 8 → (m.put64 a v).byte (a + i) = leByte v i := by
    intro i hi
    rw [put64, store_byte_in m _ (by omega) (by omega), Nat.add_sub_cancel_left]
  rw [u64, leNat_congr h, leNat_leByte]
  norm_num

/-- A stored buffer reads back. -/
theorem bytes_putBytes (m : Mem) (a : ℕ) (bs : List UInt8) :
    (m.putBytes a bs).bytes a bs.length = bs := by
  apply List.ext_getElem
  · rw [bytes_length]
  · intro i h h'
    rw [getElem_bytes, putBytes, store_byte_in m _ (by omega) (by omega), Nat.add_sub_cancel_left,
      List.getD_eq_getElem _ _ h']

/-! ### Reading past a store -/

section Out

variable (m src : Mem) {a b n : ℕ}

theorem u32_store_out (f : ℕ → UInt8) (h : b + 4 ≤ a ∨ a + n ≤ b) :
    (m.store a n f).u32 b = m.u32 b :=
  u32_congr fun i hi => store_byte_out m f (by omega)

theorem u64_store_out (f : ℕ → UInt8) (h : b + 8 ≤ a ∨ a + n ≤ b) :
    (m.store a n f).u64 b = m.u64 b :=
  u64_congr fun i hi => store_byte_out m f (by omega)

theorem u32_put32_out (v : ℕ) (h : b + 4 ≤ a ∨ a + 4 ≤ b) : (m.put32 a v).u32 b = m.u32 b :=
  u32_store_out m _ h

theorem u32_put64_out (v : ℕ) (h : b + 4 ≤ a ∨ a + 8 ≤ b) : (m.put64 a v).u32 b = m.u32 b :=
  u32_store_out m _ h

theorem u32_putBytes_out (bs : List UInt8) (h : b + 4 ≤ a ∨ a + bs.length ≤ b) :
    (m.putBytes a bs).u32 b = m.u32 b :=
  u32_store_out m _ h

theorem u32_copyFrom_out (from_ : ℕ) (h : b + 4 ≤ a ∨ a + n ≤ b) :
    (m.copyFrom src a from_ n).u32 b = m.u32 b :=
  u32_store_out m _ h

theorem u64_put32_out (v : ℕ) (h : b + 8 ≤ a ∨ a + 4 ≤ b) : (m.put32 a v).u64 b = m.u64 b :=
  u64_store_out m _ h

theorem byte_put32_out (v : ℕ) (h : b < a ∨ a + 4 ≤ b) : (m.put32 a v).byte b = m.byte b :=
  store_byte_out m _ h

theorem byte_put64_out (v : ℕ) (h : b < a ∨ a + 8 ≤ b) : (m.put64 a v).byte b = m.byte b :=
  store_byte_out m _ h

theorem byte_putBytes_out (bs : List UInt8) (h : b < a ∨ a + bs.length ≤ b) :
    (m.putBytes a bs).byte b = m.byte b :=
  store_byte_out m _ h

theorem byte_copyFrom_out (from_ : ℕ) (h : b < a ∨ a + n ≤ b) :
    (m.copyFrom src a from_ n).byte b = m.byte b :=
  store_byte_out m _ h

theorem byte_put32 (v : ℕ) {i : ℕ} (h : i < 4) : (m.put32 a v).byte (a + i) = leByte v i := by
  rw [put32, store_byte_in m _ (by omega) (by omega), Nat.add_sub_cancel_left]

/-- Copied bytes are those of the source. -/
theorem byte_copyFrom (from_ : ℕ) (h : b < n) :
    (m.copyFrom src a from_ n).byte (a + b) = src.byte (from_ + b) := by
  rw [copyFrom, store_byte_in m _ (by omega) (by omega), Nat.add_sub_cancel_left]

/-- Storing a number that was read elsewhere copies its bytes. -/
theorem byte_put64_u64 {c i : ℕ} (hi : i < 8) :
    (m.put64 a (src.u64 c)).byte (a + i) = src.byte (c + i) := by
  rw [put64, store_byte_in m _ (by omega) (by omega), Nat.add_sub_cancel_left, u64, leByte_leNat hi]

/-- A copied number is that of the source. -/
theorem u32_copyFrom (from_ : ℕ) (h : b + 4 ≤ n) :
    (m.copyFrom src a from_ n).u32 (a + b) = src.u32 (from_ + b) :=
  u32_congr fun i hi => by
    rw [Nat.add_assoc, byte_copyFrom m src from_ (by omega), Nat.add_assoc]

end Out

/-! ### Footprints -/

/-- Address `x` lies in one of the ranges. -/
def Covers (ws : List (ℕ × ℕ)) (x : ℕ) : Prop := ∃ w ∈ ws, w.1 ≤ x ∧ x < w.1 + w.2

/-- `m'` comes from `m` by stores to exactly the ranges `ws`: they are the new part of the record, and
every byte outside them is as before. -/
structure Writes (m m' : Mem) (ws : List (ℕ × ℕ)) : Prop where
  stores : m'.stores = ws ++ m.stores
  frame : ∀ x, ¬Covers ws x → m'.byte x = m.byte x

theorem Covers.append {ws vs : List (ℕ × ℕ)} {x : ℕ} :
    Covers (ws ++ vs) x ↔ Covers ws x ∨ Covers vs x := by
  simp only [Covers, List.mem_append, or_and_right, exists_or]

theorem covers_cons {w : ℕ × ℕ} {ws : List (ℕ × ℕ)} {x : ℕ} :
    Covers (w :: ws) x ↔ (w.1 ≤ x ∧ x < w.1 + w.2) ∨ Covers ws x := by
  simp only [Covers, List.mem_cons, or_and_right, exists_or, exists_eq_left]

theorem not_covers_nil (x : ℕ) : ¬Covers [] x := by
  simp [Covers]

theorem Writes.refl (m : Mem) : Writes m m [] := ⟨rfl, fun _ _ => rfl⟩

theorem Writes.store {m m' : Mem} {ws : List (ℕ × ℕ)} (h : Writes m m' ws) (a n : ℕ)
    (f : ℕ → UInt8) : Writes m (m'.store a n f) ((a, n) :: ws) := by
  refine ⟨by simp [Mem.store, h.stores], ?_⟩
  intro x hx
  rw [covers_cons, not_or] at hx
  rw [store_byte_out m' f (by omega), h.frame x hx.2]

theorem Writes.put32 {m m' : Mem} {ws : List (ℕ × ℕ)} (h : Writes m m' ws) (a v : ℕ) :
    Writes m (m'.put32 a v) ((a, 4) :: ws) :=
  h.store a 4 _

theorem Writes.put64 {m m' : Mem} {ws : List (ℕ × ℕ)} (h : Writes m m' ws) (a v : ℕ) :
    Writes m (m'.put64 a v) ((a, 8) :: ws) :=
  h.store a 8 _

theorem Writes.putBytes {m m' : Mem} {ws : List (ℕ × ℕ)} (h : Writes m m' ws) (a : ℕ)
    (bs : List UInt8) : Writes m (m'.putBytes a bs) ((a, bs.length) :: ws) :=
  h.store a bs.length _

theorem Writes.copyFrom {m m' : Mem} {ws : List (ℕ × ℕ)} (h : Writes m m' ws) (src : Mem)
    (to_ from_ n : ℕ) : Writes m (m'.copyFrom src to_ from_ n) ((to_, n) :: ws) :=
  h.store to_ n _

theorem Writes.trans {m m' m'' : Mem} {ws vs : List (ℕ × ℕ)} (h : Writes m m' ws)
    (h' : Writes m' m'' vs) : Writes m m'' (vs ++ ws) := by
  refine ⟨by rw [h'.stores, h.stores, List.append_assoc], ?_⟩
  intro x hx
  rw [Covers.append, not_or] at hx
  rw [h'.frame x hx.1, h.frame x hx.2]

end Mem

end OperatingSystems.ByteMemory
