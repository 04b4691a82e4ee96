import Mathlib

/-!
# C strings in blocks of a fixed size

A block is the list of its bytes, and a pointer into it is the part of the list from there on.  A
function of `string.h` that goes on behind the end of a block is an error.

* **`readString`**, **`readUpTo`** — the bytes up to the NUL, all of them or at most `n`.
* **`strncpy`**, **`store`** — copying a string and storing a byte; both keep the size of the block.
* **`readString_string`**, **`strncpy_string`** — what they do with a string that has its NUL;
  **`readString_unterminated`** — without a NUL the reader leaves the block.
-/

namespace OperatingSystems.StringBlocks

/-- An access behind the end of a block. -/
inductive Overrun
  | read
  | write
deriving DecidableEq, Repr

/-- The string that begins at the pointer. -/
def readString : List UInt8 → Except Overrun (List UInt8)
  | [] => .error .read
  | c :: rest =>
    if c = 0 then .ok []
    else do
      let s ← readString rest
      return c :: s

/-- At most `n` of its bytes. -/
def readUpTo : ℕ → List UInt8 → Except Overrun (List UInt8)
  | 0, _ => .ok []
  | _ + 1, [] => .error .read
  | n + 1, c :: rest =>
    if c = 0 then .ok []
    else do
      let s ← readUpTo n rest
      return c :: s

/-- `block[i] = c` -/
def store (block : List UInt8) (i : ℕ) (c : UInt8) : Except Overrun (List UInt8) :=
  if i < block.length then .ok (block.set i c) else .error .write

/-- `strncpy(block, src, n)`, which pads with NULs up to `n` and does not add one behind. -/
def strncpy (block src : List UInt8) (n : ℕ) : Except Overrun (List UInt8) := do
  let s ← readUpTo n src
  if n ≤ block.length then
    return (s ++ List.replicate (n - s.length) 0) ++ block.drop n
  else .error .write

variable {s block junk : List UInt8} {n : ℕ}

/-- **A string with its NUL** is read inside its block. -/
theorem readString_string (h : 0 ∉ s) : readString (s ++ 0 :: junk) = .ok s := by
  induction s with
  | nil => rfl
  | cons c s ih =>
    rw [List.mem_cons, not_or] at h
    rw [List.cons_append, readString, if_neg fun hc => h.1 hc.symm, ih h.2]
    rfl

/-- **Without a NUL** the reader leaves the block. -/
theorem readString_unterminated (h : 0 ∉ block) : readString block = .error .read := by
  induction block with
  | nil => rfl
  | cons c block ih =>
    rw [List.mem_cons, not_or] at h
    rw [readString, if_neg fun hc => h.1 hc.symm, ih h.2]
    rfl

theorem readUpTo_string (h : 0 ∉ s) : readUpTo n (s ++ 0 :: junk) = .ok (s.take n) := by
  induction s generalizing n with
  | nil => cases n <;> rfl
  | cons c s ih =>
    rw [List.mem_cons, not_or] at h
    cases n with
    | zero => rfl
    | succ n =>
      rw [List.cons_append, readUpTo, if_neg fun hc => h.1 hc.symm, ih h.2]
      rfl

/-- **Copying a string** that has its NUL. -/
theorem strncpy_string (h : 0 ∉ s) (hn : n ≤ block.length) :
    strncpy block (s ++ 0 :: junk) n =
      .ok (s.take n ++ List.replicate (n - s.length) 0 ++ block.drop n) := by
  have hpad : n - (s.take n).length = n - s.length := by
    rw [List.length_take]
    omega
  rw [strncpy, readUpTo_string h]
  show (if n ≤ block.length then _ else _) = _
  rw [if_pos hn, hpad]
  rfl

/-- Storing the byte behind `s`. -/
theorem store_append (s rest : List UInt8) (c d : UInt8) :
    store (s ++ c :: rest) s.length d = .ok (s ++ d :: rest) := by
  rw [store, if_pos (by simp), List.set_append_right _ _ (le_refl _), Nat.sub_self, List.set_cons_zero]

theorem replicate_append_zero (k : ℕ) (rest : List UInt8) :
    List.replicate k 0 ++ 0 :: rest = 0 :: (List.replicate k 0 ++ rest) := by
  induction k with
  | zero => rfl
  | succ k ih => rw [List.replicate_succ, List.cons_append, ih, List.cons_append]

/-- **A copy with a NUL stored behind it** holds the first `n` characters of the string. -/
theorem strncpy_store (h : 0 ∉ s) (hn : n < block.length) (junk : List UInt8) :
    ∃ copied rest, strncpy block (s ++ 0 :: junk) n = .ok copied ∧
      store copied n 0 = .ok (s.take n ++ 0 :: rest) := by
  obtain ⟨c, rest, hrest⟩ : ∃ c rest, block.drop n = c :: rest :=
    List.exists_cons_of_ne_nil (by rw [ne_eq, List.drop_eq_nil_iff]; omega)
  refine ⟨_, List.replicate (n - s.length) 0 ++ rest, strncpy_string h hn.le, ?_⟩
  have hlen : (s.take n ++ List.replicate (n - s.length) (0 : UInt8)).length = n := by
    rw [List.length_append, List.length_take, List.length_replicate]
    omega
  have hstore := store_append (s.take n ++ List.replicate (n - s.length) 0) rest c 0
  rw [hlen] at hstore
  rw [hrest, hstore, List.append_assoc, replicate_append_zero]

end OperatingSystems.StringBlocks
