import Mathlib

/-!
# Loops with a bound on their rounds

`iterate body n s` runs at most `n` rounds of a `while` loop: `body` either goes on with a new state
(`inl`) or leaves the loop with a result (`inr`).  `none` means that the rounds ran out, so a fact
about a returned result never hides a loop that does not end.

* **`iterate_result`** — the invariant rule.
* **`iterate_isSome`** — the measure rule.

## Walking a chain of offsets

`Chain next a b offs` says that following `next` from `a` meets exactly `offs` before it stands on
`b`.  **`scan_eq_foldl`**: a loop that acts on the current offset and moves to the next one until it
reaches `b` is the left fold of its action over the chain.
-/

namespace OperatingSystems.BoundedLoop

variable {σ ρ : Type*}

/-- At most `n` rounds of the loop `body` from `s`; `none` when they do not suffice. -/
def iterate (body : σ → σ ⊕ ρ) : ℕ → σ → Option ρ
  | 0, _ => none
  | n + 1, s =>
    match body s with
    | .inl s' => iterate body n s'
    | .inr r => some r

theorem iterate_inl {body : σ → σ ⊕ ρ} {s t : σ} (h : body s = .inl t) (n : ℕ) :
    iterate body (n + 1) s = iterate body n t := by
  rw [iterate, h]

theorem iterate_inr {body : σ → σ ⊕ ρ} {s : σ} {r : ρ} (h : body s = .inr r) (n : ℕ) :
    iterate body (n + 1) s = some r := by
  rw [iterate, h]

/-- **The invariant rule.**  What every round keeps holds in the round that leaves the loop. -/
theorem iterate_result {body : σ → σ ⊕ ρ} {I : σ → Prop}
    (hstep : ∀ s s', I s → body s = .inl s' → I s') {n : ℕ} {s : σ} {r : ρ} (hs : I s)
    (h : iterate body n s = some r) : ∃ s', I s' ∧ body s' = .inr r := by
  induction n generalizing s with
  | zero => simp [iterate] at h
  | succ n ih =>
    cases hb : body s with
    | inl s' =>
      rw [iterate_inl hb] at h
      exact ih (hstep s s' hs hb) h
    | inr r' =>
      rw [iterate_inr hb] at h
      exact ⟨s, hs, by rw [hb, Option.some.inj h]⟩

/-- **The measure rule.**  A loop whose rounds lower a measure ends within as many rounds. -/
theorem iterate_isSome {body : σ → σ ⊕ ρ} (rank : σ → ℕ)
    (hstep : ∀ s s', body s = .inl s' → rank s' < rank s) {n : ℕ} {s : σ} (hn : rank s < n) :
    (iterate body n s).isSome := by
  induction n generalizing s with
  | zero => exact absurd hn (Nat.not_lt_zero _)
  | succ n ih =>
    cases hb : body s with
    | inl s' =>
      rw [iterate_inl hb]
      apply ih
      have := hstep s s' hb
      omega
    | inr r =>
      rw [iterate_inr hb]
      rfl

/-! ### Chains of offsets -/

/-- Following `next` from `a` meets exactly `offs` before it stands on `b`. -/
inductive Chain (next : ℕ → ℕ) : ℕ → ℕ → List ℕ → Prop
  | nil (a : ℕ) : Chain next a a []
  | cons {a b : ℕ} {offs : List ℕ} : Chain next (next a) b offs → Chain next a b (a :: offs)

section Chains

variable {next next' : ℕ → ℕ} {a b c : ℕ} {offs xs ys : List ℕ}

theorem Chain.append (h : Chain next a b xs) (h' : Chain next b c ys) :
    Chain next a c (xs ++ ys) := by
  induction h with
  | nil => exact h'
  | cons _ ih => exact .cons (ih h')

/-- One step in front of a chain, whose end has been computed. -/
theorem Chain.step (hn : next a = c) (h : Chain next c b xs) : Chain next a b (a :: xs) :=
  .cons (hn ▸ h)

/-- A chain extended by one more offset. -/
theorem Chain.snoc (h : Chain next a b xs) : Chain next a (next b) (xs ++ [b]) :=
  h.append (.cons (.nil _))

/-- Only the values of `next` on the chain matter. -/
theorem Chain.congr (h : Chain next a b offs) (hn : ∀ o ∈ offs, next' o = next o) :
    Chain next' a b offs := by
  induction h with
  | nil a => exact .nil a
  | @cons a b offs _ ih =>
    refine .cons ?_
    rw [hn a List.mem_cons_self]
    exact ih (fun o ho => hn o (List.mem_cons_of_mem _ ho))

/-- A chain can be cut at each of its members. -/
theorem Chain.split {o : ℕ} (h : Chain next a b offs) (ho : o ∈ offs) :
    ∃ pre post, offs = pre ++ o :: post ∧ Chain next a o pre ∧ Chain next o b (o :: post) := by
  induction h with
  | nil => simp at ho
  | @cons a b offs hc ih =>
    rcases List.mem_cons.mp ho with rfl | ho
    · exact ⟨[], offs, rfl, .nil _, .cons hc⟩
    · obtain ⟨pre, post, rfl, h₁, h₂⟩ := ih ho
      exact ⟨a :: pre, post, rfl, .cons h₁, h₂⟩

theorem Chain.le (hlt : ∀ x, x < next x) (h : Chain next a b offs) : a ≤ b := by
  induction h with
  | nil => exact le_rfl
  | @cons a _ _ _ ih => exact (hlt a).le.trans ih

/-- Every member lies at or after the start, and its successor at or before the end. -/
theorem Chain.bounds (hlt : ∀ x, x < next x) (h : Chain next a b offs) :
    ∀ o ∈ offs, a ≤ o ∧ next o ≤ b := by
  induction h with
  | nil => simp
  | @cons a b offs hc ih =>
    intro o ho
    rcases List.mem_cons.mp ho with rfl | ho
    · exact ⟨le_rfl, hc.le hlt⟩
    · obtain ⟨h₁, h₂⟩ := ih o ho
      exact ⟨(hlt a).le.trans h₁, h₂⟩

/-- A chain strictly increases. -/
theorem Chain.pairwise (hlt : ∀ x, x < next x) (h : Chain next a b offs) :
    offs.Pairwise (· < ·) := by
  induction h with
  | nil => exact List.Pairwise.nil
  | @cons a b offs hc ih =>
    refine List.Pairwise.cons ?_ ih
    intro o ho
    exact (hlt a).trans_le (hc.bounds hlt o ho).1

/-- Of two members of a chain the later one lies at or after the successor of the earlier one. -/
theorem Chain.next_le (hlt : ∀ x, x < next x) (h : Chain next a b offs) {x y : ℕ} (hx : x ∈ offs)
    (hy : y ∈ offs) (hxy : x < y) : next x ≤ y := by
  induction h with
  | nil => simp at hx
  | @cons a b offs hc ih =>
    rcases List.mem_cons.mp hx with rfl | hx' <;> rcases List.mem_cons.mp hy with rfl | hy'
    · exact absurd hxy (lt_irrefl _)
    · exact (hc.bounds hlt y hy').1
    · exact absurd hxy (by have := hlt y; have := (hc.bounds hlt x hx').1; omega)
    · exact ih hx' hy'

theorem Chain.length_le (hlt : ∀ x, x < next x) (h : Chain next a b offs) :
    offs.length ≤ b - a := by
  induction h with
  | nil => simp
  | @cons a b offs hc ih =>
    have h₁ := hlt a
    have h₂ := hc.le hlt
    rw [List.length_cons]
    omega

/-- The steps of a chain add up to the distance between its ends. -/
theorem Chain.sum (hlt : ∀ x, x < next x) (h : Chain next a b offs) :
    a + (offs.map fun o => next o - o).sum = b := by
  induction h with
  | nil => simp
  | @cons a b offs _ ih =>
    have := hlt a
    rw [List.map_cons, List.sum_cons]
    omega

/-- The steps of some members, each taken once, fit between the ends. -/
theorem Chain.sum_le (hlt : ∀ x, x < next x) (h : Chain next a b offs) (hnd : xs.Nodup)
    (hsub : xs ⊆ offs) : a + (xs.map fun o => next o - o).sum ≤ b := by
  rw [← h.sum hlt]
  obtain ⟨ys, hperm, hsubl⟩ := hnd.subperm hsub
  rw [← (hperm.map _).sum_eq]
  exact Nat.add_le_add_left ((hsubl.map _).sum_le_sum fun _ _ => Nat.zero_le _) _

/-- **A chain is determined by its two ends.** -/
theorem Chain.unique (hlt : ∀ x, x < next x) (h : Chain next a b xs) (h' : Chain next a b ys) :
    xs = ys := by
  induction h generalizing ys with
  | nil a =>
    cases h' with
    | nil => rfl
    | cons hc => exact absurd (hc.le hlt) (by have := hlt a; omega)
  | @cons a b offs hc ih =>
    cases h' with
    | nil => exact absurd (hc.le hlt) (by have := hlt a; omega)
    | cons hc' => rw [ih hc']

/-- Whether following `next` for at most `n` steps lands exactly on `b`. -/
def lands (next : ℕ → ℕ) (b : ℕ) : ℕ → ℕ → Bool
  | 0, _ => false
  | n + 1, a => if a < b then lands next b n (next a) else a == b

/-- **A chain can be followed by computing**, which decides whether there is one. -/
theorem Chain.lands (hlt : ∀ x, x < next x) (h : Chain next a b offs) {n : ℕ} (hn : b - a < n) :
    BoundedLoop.lands next b n a := by
  induction h generalizing n with
  | nil a =>
    obtain ⟨n, rfl⟩ : ∃ n', n = n' + 1 := ⟨n - 1, by omega⟩
    simp [BoundedLoop.lands]
  | @cons a b offs hc ih =>
    obtain ⟨n, rfl⟩ : ∃ n', n = n' + 1 := ⟨n - 1, by omega⟩
    have h₁ := hlt a
    have h₂ := hc.le hlt
    rw [BoundedLoop.lands, if_pos (by omega)]
    exact ih (by omega)

end Chains

/-! ### Scanning a chain -/

/-- One round of `while (off < stop) { act; off = next; }` over a state that `act` may change. -/
def scanBody (stop : σ → ℕ) (next : σ → ℕ → ℕ) (act : ℕ → σ → σ) : ℕ × σ → (ℕ × σ) ⊕ σ :=
  fun p => if p.1 < stop p.2 then .inl (next (act p.1 p.2) p.1, act p.1 p.2) else .inr p.2

/-- **Scanning a chain is a left fold**, as long as the action moves neither the stop nor the chain.  The
chain need not land on the stop: the loop ends at the first offset at or beyond it. -/
theorem scan_eq_foldl (stop : σ → ℕ) (next : σ → ℕ → ℕ) (act : ℕ → σ → σ) (J : σ → Prop)
    {nxt : ℕ → ℕ} {a b h : ℕ} {offs : List ℕ} (hlt : ∀ x, x < nxt x)
    (hstop : ∀ s, J s → stop s = h) (hoffs : ∀ o ∈ offs, o < h) (hb : h ≤ b)
    (hact : ∀ s, J s → ∀ o ∈ offs, J (act o s) ∧ next (act o s) o = nxt o)
    (hc : Chain nxt a b offs) {s : σ} (hs : J s) {n : ℕ} (hn : h - a < n) :
    iterate (scanBody stop next act) n (a, s) = some (offs.foldl (fun s o => act o s) s) := by
  induction hc generalizing s n with
  | nil a =>
    obtain ⟨n, rfl⟩ : ∃ n', n = n' + 1 := ⟨n - 1, by omega⟩
    apply iterate_inr
    rw [scanBody, hstop s hs, if_neg (not_lt.mpr hb), List.foldl_nil]
  | @cons a b offs hc ih =>
    obtain ⟨n, rfl⟩ : ∃ n', n = n' + 1 := ⟨n - 1, by omega⟩
    have hah : a < h := hoffs a List.mem_cons_self
    have hab : a < nxt a := hlt a
    obtain ⟨hs', hnx⟩ := hact s hs a List.mem_cons_self
    have hbody : scanBody stop next act (a, s) = .inl (nxt a, act a s) := by
      simp only [scanBody, hstop s hs, if_pos hah, hnx]
    rw [iterate_inl hbody, List.foldl_cons]
    exact ih (fun o ho => hoffs o (List.mem_cons_of_mem _ ho)) hb
      (fun s hs o ho => hact s hs o (List.mem_cons_of_mem _ ho)) hs' (by omega)

/-- Every scan follows some chain up to the stop. -/
theorem exists_chain {nxt : ℕ → ℕ} (hlt : ∀ x, x < nxt x) (h : ℕ) :
    ∀ a, ∃ b offs, Chain nxt a b offs ∧ h ≤ b ∧ ∀ o ∈ offs, o < h := by
  intro a
  induction hk : h - a using Nat.strong_induction_on generalizing a with
  | _ k ih =>
    by_cases ha : a < h
    · have := hlt a
      obtain ⟨b, offs, hc, hb, hoffs⟩ := ih (h - nxt a) (by omega) (nxt a) rfl
      refine ⟨b, a :: offs, .cons hc, hb, ?_⟩
      rw [List.forall_mem_cons]
      exact ⟨ha, hoffs⟩
    · exact ⟨a, [], .nil a, not_lt.mp ha, by simp⟩

end OperatingSystems.BoundedLoop
