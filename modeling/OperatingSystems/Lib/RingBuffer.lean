import Mathlib

/-!
# A ring buffer whose counters wrap around

A buffer of `N` places, with a counter of what has been taken out of it and one of what has been put in.  The
counters wrap around at `M`, a multiple of `N`, and a place is found by the remainder modulo `N`.

* **`Buffer.push`**, **`Buffer.pop`** — the operations.
* **`Buffer.contents`** — what is in the buffer; `contents_push` and `contents_pop` say that it is a queue.
-/

namespace OperatingSystems.RingBuffer

structure Buffer (α : Type*) where
  data : ℕ → α
  nread : ℕ
  nwrite : ℕ

variable {α : Type*} {N M x : ℕ} {b : Buffer α}

def Buffer.push (N M : ℕ) (c : α) (b : Buffer α) : Buffer α :=
  { b with data := Function.update b.data (b.nwrite % N) c, nwrite := (b.nwrite + 1) % M }

def Buffer.front (N : ℕ) (b : Buffer α) : α := b.data (b.nread % N)

def Buffer.pop (M : ℕ) (b : Buffer α) : Buffer α := { b with nread := (b.nread + 1) % M }

/-- How much is in the buffer. -/
def Buffer.count (M : ℕ) (b : Buffer α) : ℕ := (b.nwrite + (M - b.nread)) % M

/-- **What is in the buffer**, in the order in which it was put in. -/
def Buffer.contents (N M : ℕ) (b : Buffer α) : List α :=
  (List.range (b.count M)).map fun j => b.data ((b.nread + j) % N)

/-- The counters are in their range, and the buffer holds no more than it can. -/
structure Buffer.Ok (N M : ℕ) (b : Buffer α) : Prop where
  nread_lt : b.nread < M
  nwrite_lt : b.nwrite < M
  count_le : b.count M ≤ N

/-! ### The counters -/

theorem succ_mod (h : x < M) : (x + 1) % M = if x + 1 = M then 0 else x + 1 := by
  split
  · rename_i heq
    rw [heq, Nat.mod_self]
  · exact Nat.mod_eq_of_lt (by omega)

theorem add_mod_of_lt {y : ℕ} (hx : x < M) (hy : y ≤ M) : (x + y) % M = if x + y < M then x + y else x + y - M := by
  split
  · rename_i hlt
    exact Nat.mod_eq_of_lt hlt
  · rw [Nat.mod_eq_sub_mod (by omega)]
    exact Nat.mod_eq_of_lt (by omega)

theorem Buffer.Ok.count_eq (h : b.Ok N M) :
    b.count M = if b.nread ≤ b.nwrite then b.nwrite - b.nread else b.nwrite + M - b.nread := by
  have hread := h.nread_lt
  have hwrite := h.nwrite_lt
  unfold Buffer.count
  rw [add_mod_of_lt hwrite (Nat.sub_le M b.nread)]
  split
  · split
    · omega
    · omega
  · split
    · omega
    · omega

@[simp] theorem Buffer.contents_length (N M : ℕ) (b : Buffer α) : (b.contents N M).length = b.count M := by
  simp [Buffer.contents]

/-- The test for a full buffer. -/
theorem Buffer.Ok.full_iff (h : b.Ok N M) (hNM : N < M) : b.nwrite = (b.nread + N) % M ↔ b.count M = N := by
  have hread := h.nread_lt
  have hwrite := h.nwrite_lt
  rw [h.count_eq, add_mod_of_lt hread hNM.le]
  split
  · split
    · omega
    · omega
  · split
    · omega
    · omega

/-- The test for an empty buffer. -/
theorem Buffer.Ok.empty_iff (h : b.Ok N M) : b.nread = b.nwrite ↔ b.count M = 0 := by
  have hread := h.nread_lt
  rw [h.count_eq]
  split
  · omega
  · omega

theorem Buffer.Ok.count_push (h : b.Ok N M) (hNM : N < M) (hroom : b.count M < N) (c : α) :
    (b.push N M c).count M = b.count M + 1 := by
  have hread := h.nread_lt
  have hwrite := h.nwrite_lt
  have hcount := h.count_eq
  have hafter : (b.push N M c).count M = ((b.nwrite + 1) % M + (M - b.nread)) % M := rfl
  rw [hafter, succ_mod hwrite]
  split
  · rw [add_mod_of_lt (by omega) (Nat.sub_le M b.nread)]
    split at hcount
    · split
      · omega
      · omega
    · omega
  · rw [add_mod_of_lt (by omega) (Nat.sub_le M b.nread)]
    split at hcount
    · split
      · omega
      · omega
    · split
      · omega
      · omega

theorem Buffer.Ok.count_pop (h : b.Ok N M) (hsome : 0 < b.count M) : (b.pop M).count M + 1 = b.count M := by
  have hread := h.nread_lt
  have hwrite := h.nwrite_lt
  have hcount := h.count_eq
  have hafter : (b.pop M).count M = (b.nwrite + (M - (b.nread + 1) % M)) % M := rfl
  rw [hafter, succ_mod hread]
  split
  · rw [Nat.sub_zero, Nat.add_mod_right, Nat.mod_eq_of_lt hwrite]
    split at hcount
    · omega
    · omega
  · rw [add_mod_of_lt hwrite (Nat.sub_le M _)]
    split at hcount
    · split
      · omega
      · omega
    · split
      · omega
      · omega

theorem Buffer.Ok.push (h : b.Ok N M) (hNM : N < M) (hroom : b.count M < N) (c : α) : (b.push N M c).Ok N M where
  nread_lt := h.nread_lt
  nwrite_lt := Nat.mod_lt _ (Nat.zero_lt_of_lt hNM)
  count_le := by
    rw [h.count_push hNM hroom]
    exact hroom

theorem Buffer.Ok.pop (h : b.Ok N M) (hsome : 0 < b.count M) : (b.pop M).Ok N M where
  nread_lt := Nat.mod_lt _ (Nat.zero_lt_of_lt h.nread_lt)
  nwrite_lt := h.nwrite_lt
  count_le := by
    have hcount := h.count_pop hsome
    have hle := h.count_le
    omega

/-! ### The places -/

/-- The place that is written next, counted from the one that is read next. -/
theorem Buffer.Ok.nwrite_mod (h : b.Ok N M) (hdvd : N ∣ M) : b.nwrite % N = (b.nread + b.count M) % N := by
  have hread := h.nread_lt
  have hwrite := h.nwrite_lt
  have hcount := h.count_eq
  have hmod : (b.nread + b.count M) % M = b.nwrite := by
    split at hcount
    · rw [hcount, Nat.add_sub_cancel' ‹_›, Nat.mod_eq_of_lt hwrite]
    · rw [hcount, show b.nread + (b.nwrite + M - b.nread) = b.nwrite + M by omega, Nat.add_mod_right,
        Nat.mod_eq_of_lt hwrite]
  calc b.nwrite % N = (b.nread + b.count M) % M % N := by rw [hmod]
    _ = (b.nread + b.count M) % N := Nat.mod_mod_of_dvd _ hdvd

/-- Two places less than `N` apart are different. -/
theorem mod_ne {i j : ℕ} (hij : i < j) (hj : j < N) : (x + i) % N ≠ (x + j) % N := by
  intro heq
  have hmod : i % N = j % N := Nat.ModEq.add_left_cancel' x heq
  rw [Nat.mod_eq_of_lt (by omega), Nat.mod_eq_of_lt hj] at hmod
  omega

/-- **What is put in comes to the end.** -/
theorem Buffer.Ok.contents_push (h : b.Ok N M) (hNM : N < M) (hdvd : N ∣ M) (hroom : b.count M < N) (c : α) :
    (b.push N M c).contents N M = b.contents N M ++ [c] := by
  have hplace := h.nwrite_mod hdvd
  unfold Buffer.contents
  rw [h.count_push hNM hroom, List.range_succ, List.map_append]
  congr 1
  · refine List.map_congr_left fun j hj => ?_
    show Function.update b.data (b.nwrite % N) c ((b.nread + j) % N) = _
    rw [hplace, Function.update_of_ne (mod_ne (List.mem_range.mp hj) hroom)]
  · show [Function.update b.data (b.nwrite % N) c ((b.nread + b.count M) % N)] = [c]
    rw [hplace, Function.update_self]

/-- **What is taken out was in front.** -/
theorem Buffer.Ok.contents_pop (h : b.Ok N M) (hdvd : N ∣ M) (hsome : 0 < b.count M) :
    b.contents N M = b.front N :: (b.pop M).contents N M := by
  unfold Buffer.contents
  rw [← h.count_pop hsome, List.range_succ_eq_map, List.map_cons, List.map_map]
  congr 1
  refine List.map_congr_left fun j _ => ?_
  show b.data ((b.nread + (j + 1)) % N) = b.data (((b.nread + 1) % M + j) % N)
  congr 1
  rw [Nat.add_mod ((b.nread + 1) % M), Nat.mod_mod_of_dvd _ hdvd, ← Nat.add_mod]
  congr 1
  omega

end OperatingSystems.RingBuffer
