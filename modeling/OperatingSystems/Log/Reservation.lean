import Mathlib
import OperatingSystems.Lib.GuardedRuns
import OperatingSystems.Log.Recovery

/-!
# The room that `begin_op` reserves

`begin_op` lets a call begin when the log has room for `MAXOPBLOCKS` blocks of each call under way.  The log
of `LOGSIZE` blocks that `mkfs` makes has one block less for data, as its first is the header.  `log_write` tests
for room before it takes the lock, so that what it has tested need not hold when it has it: the room that is
reserved is what makes it hold.

* **`Reserved`**, **`Reserved.step`** — the blocks in the log and those that the calls may still write; each step
  keeps the room, and the invariant of the log with it.
* **`crash_atomic`** — crashes and recoveries, over all runs.
* **`log_write_never_panics_iff`** — the room is enough if and only if no call writes more than
  `MAXOPBLOCKS - 1` blocks.
-/

namespace OperatingSystems.Log

open GuardedRuns

variable {ι : Type} {cfg : Config} {m n : ℕ} {b : ℕ} {data : Block}
  {s s' : State ι} {p : ι} {e : Event ι} {logged : Finset ℕ}

/-- The guard of the runs: a call writes at most `m` different blocks, none of them of the log. -/
def Budget (cfg : Config) (m : ℕ) (s : State ι) : Event ι → Prop
  | .log_write p b _ => cfg.Home b ∧ (insert b (s.call p).logged).card ≤ m
  | _ => True

/-- The blocks that a call may still write. -/
def Call.spare (m : ℕ) : Call → ℕ
  | .outside => 0
  | .inside logged => m - logged.card
  | .tested logged => m - logged.card

/-- The blocks that all calls may still write. -/
def State.reserve [Fintype ι] (m : ℕ) (s : State ι) : ℕ :=
  ∑ p, (s.call p).spare m

/-- **What is in the log and what may still come** fit, with one block to spare. -/
structure Reserved [Fintype ι] (m : ℕ) (s : State ι) : Prop where
  logged : ∀ p, ∀ b ∈ (s.call p).logged, b ∈ s.lh
  room : s.lh.length + s.reserve m + 2 ≤ LOGSIZE

section Room

variable [Fintype ι]

theorem Call.spare_le (m : ℕ) (c : Call) : c.spare m ≤ if c ≠ .outside then m else 0 := by
  cases c with
  | outside => exact le_refl 0
  | inside logged => exact Nat.sub_le _ _
  | tested logged => exact Nat.sub_le _ _

theorem reserve_le (m : ℕ) (s : State ι) : s.reserve m ≤ s.active.card * m := by
  calc s.reserve m ≤ ∑ p, if s.call p ≠ .outside then m else 0 :=
        Finset.sum_le_sum fun p _ => (s.call p).spare_le m
    _ = s.active.card * m := by
        rw [← Finset.sum_filter, Finset.sum_const, smul_eq_mul]
        rfl

variable [DecidableEq ι]

/-- One call moves. -/
theorem reserve_update (m : ℕ) (p : ι) (c : Call) (hcall : s'.call = Function.update s.call p c) :
    s'.reserve m + (s.call p).spare m = s.reserve m + c.spare m := by
  have hrest : ∑ q ∈ Finset.univ.erase p, (s'.call q).spare m =
      ∑ q ∈ Finset.univ.erase p, (s.call q).spare m := by
    refine Finset.sum_congr rfl fun q hq => ?_
    rw [hcall, Function.update_of_ne (Finset.ne_of_mem_erase hq)]
  have hafter := Finset.add_sum_erase Finset.univ (fun q => (s'.call q).spare m) (Finset.mem_univ p)
  have hbefore := Finset.add_sum_erase Finset.univ (fun q => (s.call q).spare m) (Finset.mem_univ p)
  rw [hcall, Function.update_self, ← hcall, hrest] at hafter
  unfold State.reserve
  omega

/-- A call moves, and the list may grow. -/
theorem Reserved.move (h : Reserved m s) {c : Call} (hcall : s'.call = Function.update s.call p c)
    (hlh : ∀ x ∈ s.lh, x ∈ s'.lh) (hlogged : ∀ x ∈ c.logged, x ∈ s'.lh)
    (hroom : s'.lh.length + s.reserve m + c.spare m + 2 ≤ LOGSIZE + (s.call p).spare m) : Reserved m s' := by
  have hsum := reserve_update m p c hcall
  refine ⟨fun q x hx => ?_, by omega⟩
  rw [hcall] at hx
  by_cases hqp : q = p
  · rw [hqp, Function.update_self] at hx
    exact hlogged x hx
  · rw [Function.update_of_ne hqp] at hx
    exact hlh x (h.logged q x hx)

/-- A call moves, and the list is the same. -/
theorem Reserved.stay (h : Reserved m s) {c : Call} (hcall : s'.call = Function.update s.call p c)
    (hlh : s'.lh = s.lh) (hlogged : c.logged ⊆ (s.call p).logged)
    (hspare : c.spare m ≤ (s.call p).spare m) : Reserved m s' := by
  have hroom := h.room
  refine h.move hcall (fun x hx => by rwa [hlh]) (fun x hx => ?_) (by rw [hlh]; omega)
  rw [hlh]
  exact h.logged p x (hlogged hx)

omit [DecidableEq ι] in
/-- With no call under way and nothing in the log. -/
theorem Reserved.idle (hout : ∀ q, s.call q = .outside) (hlh : s.lh = []) : Reserved m s := by
  have hzero : s.reserve m = 0 := by
    refine Finset.sum_eq_zero fun q _ => ?_
    rw [hout q]
    rfl
  refine ⟨fun q x hx => ?_, ?_⟩
  · rw [hout q] at hx
    exact absurd hx (Finset.notMem_empty x)
  · rw [hlh, hzero]
    decide

theorem Reserved.begin_op (h : s.phase = .running → Reserved m s) (hinv : Inv cfg s) (hm : m < MAXOPBLOCKS)
    (hrun : s'.phase = .running) (hstep : begin_op p s = .ok s') : Reserved m s' := by
  obtain ⟨-, -, -, hfits, rfl⟩ := begin_op_ok hstep
  have hopen : s.phase = .running := hrun
  have hle := reserve_le m s
  rw [← hinv.count] at hle
  have h := h hopen
  have hroom : s.lh.length + s.reserve m + m + 2 ≤ LOGSIZE := by
    by_cases hzero : s.outstanding = 0
    · rw [hzero, Nat.zero_mul] at hle
      rw [hinv.empty hopen hzero, List.length_nil]
      unfold LOGSIZE
      unfold MAXOPBLOCKS at hm ⊢
      omega
    · have hall : (s.outstanding + 1) * (m + 1) ≤ (s.outstanding + 1) * MAXOPBLOCKS :=
        Nat.mul_le_mul_left _ hm
      have hsplit : (s.outstanding + 1) * (m + 1) = s.outstanding * m + m + s.outstanding + 1 := by ring
      omega
  refine h.move (c := .inside ∅) rfl (fun x hx => hx) (fun x hx => absurd hx (Finset.notMem_empty x)) ?_
  exact Nat.le_add_right_of_le hroom

theorem Reserved.test (h : s.phase = .running → Reserved m s) (hrun : s'.phase = .running)
    (hstep : test cfg p s = .ok s') : Reserved m s' := by
  obtain ⟨logged, hcall, rfl⟩ := test_ok hstep
  refine (h hrun).stay (c := .tested logged) rfl rfl ?_ ?_
  · rw [hcall]
    exact Finset.Subset.refl _
  · rw [hcall]
    exact le_refl _

theorem Reserved.end_op (h : s.phase = .running → Reserved m s) (hrun : s'.phase = .running)
    (hstep : end_op p s = .ok s') : Reserved m s' := by
  obtain ⟨-, -, ⟨-, rfl⟩ | ⟨-, rfl⟩⟩ := end_op_ok hstep
  · dsimp only at hrun
    split at hrun
    · cases hrun
    · cases hrun
  · exact (h hrun).stay (c := .outside) rfl rfl (Finset.empty_subset _) (Nat.zero_le _)

omit [DecidableEq ι] in
/-- **The room that is tested is still there** when `log_write` has the lock. -/
theorem Reserved.tested (h : Reserved m s) (hsize : cfg.size = LOGSIZE) (hhome : cfg.Home b) : Room cfg s b := by
  have hroom := h.room
  exact ⟨hhome, .inr (by omega)⟩

theorem Reserved.log_write (h : s.phase = .running → Reserved m s) (hrun : s'.phase = .running)
    (hcard : (insert b (s.call p).logged).card ≤ m) (hstep : log_write p b data s = .ok s') : Reserved m s' := by
  obtain ⟨logged, hcall, rfl⟩ := log_write_ok hstep
  rw [hcall] at hcard
  have h := h hrun
  have hroom := h.room
  have hlogged : ∀ x ∈ logged, x ∈ s.lh := by
    intro x hx
    refine h.logged p x ?_
    rwa [hcall]
  by_cases hb : b ∈ s.lh
  · have hspare : (Call.inside (insert b logged)).spare m ≤ (s.call p).spare m := by
      rw [hcall]
      exact Nat.sub_le_sub_left (Finset.card_le_card (Finset.subset_insert b logged)) m
    refine h.move (c := .inside (insert b logged)) rfl (fun x hx => ?_) (fun x hx => ?_) ?_
    · rwa [if_pos hb]
    · rw [if_pos hb]
      rcases Finset.mem_insert.mp hx with hx | hx
      · rwa [hx]
      · exact hlogged x hx
    · dsimp only
      rw [if_pos hb]
      omega
  · -- a block that is new in the list is new for the call
    have hnew : b ∉ logged := fun hin => hb (hlogged b hin)
    have hspare : (Call.inside (insert b logged)).spare m + 1 = (s.call p).spare m := by
      rw [hcall]
      show m - (insert b logged).card + 1 = m - logged.card
      rw [show (Call.tested logged).logged = logged from rfl] at hcard
      rw [Finset.card_insert_of_notMem hnew] at hcard ⊢
      omega
    refine h.move (c := .inside (insert b logged)) rfl (fun x hx => ?_) (fun x hx => ?_) ?_
    · rw [if_neg hb]
      exact List.mem_append.mpr (.inl hx)
    · rw [if_neg hb]
      refine List.mem_append.mpr ?_
      rcases Finset.mem_insert.mp hx with hx | hx
      · exact .inr (List.mem_singleton.mpr hx)
      · exact .inl (hlogged x hx)
    · rw [if_neg hb, List.length_append, List.length_singleton]
      omega

omit [Fintype ι] [DecidableEq ι] in
theorem commit_call (hstep : commit cfg s = .ok s') : s'.call = s.call := by
  cases commit_cases hstep with
  | _ => rfl

omit [Fintype ι] [DecidableEq ι] in
theorem commit_not_running (hstep : commit cfg s = .ok s') : s.phase ≠ .running := by
  intro hrun
  unfold commit at hstep
  rw [hrun] at hstep
  cases hstep

omit [Fintype ι] [DecidableEq ι] in
theorem recover_not_running (hstep : recover cfg s = .ok s') : s.phase ≠ .running := by
  intro hrun
  unfold recover at hstep
  rw [hrun] at hstep
  cases hstep

omit [Fintype ι] in
theorem log_write_inside (hstep : log_write p b data s = .ok s') : s.call p ≠ .outside := by
  obtain ⟨logged, hcall, -⟩ := log_write_ok hstep
  rw [hcall]
  exact fun hc => by cases hc

omit [DecidableEq ι] in
/-- A step with no call under way that opens the log. -/
theorem Reserved.opened (hinv : Inv cfg s) (hinv' : Inv cfg s') (hne : s.phase ≠ .running)
    (hcall : s'.call = s.call) (hrun : s'.phase = .running) : Reserved m s' := by
  have hout : ∀ q, s'.call q = .outside := fun q => by
    rw [hcall]
    exact hinv.quiet hne q
  have hzero : s'.outstanding = 0 := by
    rw [hinv'.count]
    exact Finset.card_eq_zero.mpr (Finset.eq_empty_of_forall_notMem fun q hq => mem_active.mp hq (hout q))
  exact .idle hout (hinv'.empty hrun hzero)

/-! ### Runs -/

/-- **One step keeps the room**, and the invariant with it. -/
theorem Reserved.step (hinv : Inv cfg s) (h : s.phase = .running → Reserved m s) (hsize : cfg.size = LOGSIZE)
    (hm : m < MAXOPBLOCKS) (hok : Budget cfg m s e) (hstep : step cfg s e s') :
    Inv cfg s' ∧ (s'.phase = .running → Reserved m s') := by
  cases e with
  | begin_op p => exact ⟨hinv.begin_op hstep, fun hrun => .begin_op h hinv hm hrun hstep⟩
  | test p => exact ⟨hinv.test hstep, fun hrun => .test h hrun hstep⟩
  | log_write p b data =>
    have hopen := hinv.running (log_write_inside hstep)
    exact ⟨hinv.log_write ((h hopen).tested hsize hok.1) hstep, fun hrun => .log_write h hrun hok.2 hstep⟩
  | end_op p => exact ⟨hinv.end_op hstep, fun hrun => .end_op h hrun hstep⟩
  | commit =>
    have hinv' := hinv.commit hstep
    exact ⟨hinv', fun hrun => .opened hinv hinv' (commit_not_running hstep) (commit_call hstep) hrun⟩
  | recover =>
    have hinv' := hinv.recover hstep
    exact ⟨hinv', fun hrun => .opened hinv hinv' (recover_not_running hstep) (recover_frame hstep).2 hrun⟩
  | crash =>
    refine ⟨?_, fun hrun => ?_⟩
    · cases hstep
      exact hinv.crash
    · cases hstep
      cases hrun

theorem reserved_of_reach (hsize : cfg.size = LOGSIZE) (hm : m < MAXOPBLOCKS)
    (h : Reach (init cfg) (step cfg) (Budget cfg m) s) : Inv cfg s ∧ (s.phase = .running → Reserved m s) := by
  refine h.invariant (I := fun s => Inv cfg s ∧ (s.phase = .running → Reserved m s))
    (fun s h0 => ⟨inv_of_init (by rw [hsize]; decide) h0, fun hrun => ?_⟩)
    fun s e s' hs hok hstep => Reserved.step hs.1 hs.2 hsize hm hok hstep
  rw [h0.1] at hrun
  cases hrun

/-! ### Crashes -/

/-- **A crash loses nothing that is committed, and keeps nothing that is not.**  From any state reached, by
calls, commits, crashes and recoveries in any order, the start after a crash leads to a state in which every
block contains what it contained at the last commit.  Commits are made with no call under way, of all that the
calls have written; when no call is under way and the log is open, everything is committed; and a reader finds in
a block what `log_write` was last given for it. -/
theorem crash_atomic (hsize : cfg.size = LOGSIZE) (hm : m < MAXOPBLOCKS)
    (h : Reach (init cfg) (step cfg) (Budget cfg m) s) :
    (∃ s', Relation.ReflTransGen (Recovers cfg) (crash s) s' ∧ s'.phase = .running ∧
      ∀ b, cfg.Home b → s'.bread b = s.durable b) ∧
    (s.phase = .running → (∀ q, s.call q = .outside) → ∀ b, cfg.Home b → s.bread b = s.durable b) ∧
    ∀ e s', step cfg s e s' → e ≠ .crash →
      (s'.durable = s.durable ∨
        s.phase = .write_head ∧ (∀ q, s.call q = .outside) ∧ s'.durable = s.bread) ∧
      (e ≠ .recover → ∀ b, cfg.Home b → s'.bread b = e.writes s.bread b) := by
  have hinv := (reserved_of_reach hsize hm h).1
  exact ⟨hinv.recovered, fun hrun hout b hb => hinv.settled hrun hout hb,
    fun e s' hstep hne => hinv.changes hstep hne⟩

/-- A disk of zeros, with the log in the blocks `2` to `31`. -/
def blank : State (Fin 1) :=
  crash ⟨fun _ _ => 0, fun _ => none, [], 0, false, .running, fun _ => .outside, fun _ _ => 0⟩

/-- A call writes block `40`, and the machine stops when its commit has written the header. -/
theorem crash_atomic_header : ∃ s : State (Fin 1), s.disk 40 0 = 0 ∧ ∃ s',
    Relation.ReflTransGen (Recovers ⟨2, LOGSIZE⟩) (crash s) s' ∧ s'.bread 40 0 = 7 := by
  have hblank : Reach (init ⟨2, LOGSIZE⟩) (step ⟨2, LOGSIZE⟩) (Budget ⟨2, LOGSIZE⟩ 9) blank :=
    .start ⟨rfl, rfl, rfl⟩
  have hopen := Reach.foldlM [.recover, .recover, .recover, .begin_op 0, .test 0] blank _
    (by simp [Budget]) hblank rfl
  have hlogged := Reach.next (a := .log_write 0 40 fun _ => 7) hopen
    (by show Config.Home _ 40 ∧ Finset.card {40} ≤ 9; exact ⟨.inr (by decide), by decide⟩) rfl
  have hstopped := Reach.foldlM [.end_op 0, .commit, .commit, .commit] _ _ (by simp [Budget]) hlogged rfl
  obtain ⟨⟨s', hrun, -, hread⟩, -⟩ := crash_atomic rfl (by decide) hstopped
  exact ⟨_, rfl, s', hrun, congrFun (hread 40 (.inr (by decide))) 0⟩

/-! ### Panics -/

omit [Fintype ι] in
theorem begin_op_stop {why : Stop} (hstop : begin_op p s = .error why) : why = .sleeps ∨ why = .elsewhere := by
  unfold begin_op at hstop
  split at hstop
  · cases hstop
    exact .inr rfl
  · cases hstop
    exact .inr rfl
  · cases hstop
    exact .inr rfl
  · split at hstop
    · cases hstop
      exact .inl rfl
    · split at hstop
      · cases hstop
        exact .inl rfl
      · cases hstop
  · cases hstop
    exact .inr rfl

/-- The tests of `log_write` pass. -/
theorem Reserved.test_stop (hinv : Inv cfg s) (h : s.phase = .running → Reserved m s)
    (hsize : cfg.size = LOGSIZE) {why : Stop} (hstop : Log.test cfg p s = .error why) : why = .elsewhere := by
  unfold Log.test at hstop
  split at hstop
  · rename_i logged hcall
    have hmem : p ∈ s.active := by
      rw [mem_active, hcall]
      exact fun hc => by cases hc
    have hroom := (h (hinv.running (mem_active.mp hmem))).room
    split at hstop
    · rename_i hbig
      exact absurd hbig (by omega)
    · split at hstop
      · rename_i hnone
        have hpos : 0 < s.outstanding := by
          rw [hinv.count]
          exact Finset.card_pos.mpr ⟨p, hmem⟩
        exact absurd hnone (by omega)
      · cases hstop
  · cases hstop
    rfl

omit [DecidableEq ι] in
/-- No call is under way while there is a commit. -/
theorem Inv.not_committing (h : Inv cfg s) (hcall : s.call p ≠ .outside) : s.committing = false :=
  (h.clean (h.running hcall)).2

theorem Inv.end_op_stop (hinv : Inv cfg s) {why : Stop} (hstop : Log.end_op p s = .error why) :
    why = .elsewhere := by
  unfold Log.end_op at hstop
  split at hstop
  · rename_i logged hcall
    have hfree := hinv.not_committing (by rw [hcall]; exact fun hc => by cases hc)
    rw [hfree, if_neg (by decide)] at hstop
    dsimp only at hstop
    split at hstop
    · cases hstop
    · cases hstop
  · cases hstop
    rfl

/-- **No step panics** where the invariant and the room are kept. -/
theorem Reserved.no_panic (hinv : Inv cfg s) (h : s.phase = .running → Reserved m s) (hsize : cfg.size = LOGSIZE)
    {why : Stop} (hstop : next cfg s e = .error why) : why = .sleeps ∨ why = .elsewhere := by
  cases e with
  | begin_op p => exact begin_op_stop hstop
  | test p => exact .inr (Reserved.test_stop hinv h hsize hstop)
  | log_write p b data =>
    change Log.log_write p b data s = .error why at hstop
    unfold Log.log_write at hstop
    split at hstop
    · cases hstop
    · cases hstop
      exact .inr rfl
  | end_op p => exact .inr (hinv.end_op_stop hstop)
  | commit =>
    change Log.commit cfg s = .error why at hstop
    unfold Log.commit at hstop
    split at hstop
    · split at hstop
      · cases hstop
      · cases hstop
    · cases hstop
    · split at hstop
      · cases hstop
      · cases hstop
    · cases hstop
    · cases hstop
    · cases hstop
      exact .inr rfl
  | recover =>
    change Log.recover cfg s = .error why at hstop
    unfold Log.recover at hstop
    split at hstop
    · cases hstop
    · split at hstop
      · cases hstop
      · cases hstop
    · cases hstop
    · cases hstop
      exact .inr rfl
  | crash => cases hstop

end Room

/-! ### Ten blocks are too many -/

section Full

variable [DecidableEq ι]

/-- **A call writes `n` blocks** that are new in the list. -/
theorem fill {k : ℕ} (h : Reach (init cfg) (step cfg) (Budget cfg m) s) (hsize : cfg.size = LOGSIZE)
    (hlh : s.lh = List.range' (cfg.start + cfg.size) k) (hcall : s.call p = .inside logged)
    (hout : 1 ≤ s.outstanding) (hroom : k + n + 1 ≤ LOGSIZE) (hbudget : logged.card + n ≤ m) :
    ∃ s' logged', Reach (init cfg) (step cfg) (Budget cfg m) s' ∧
      s'.lh = List.range' (cfg.start + cfg.size) (k + n) ∧
      s'.call = Function.update s.call p (.inside logged') ∧ s'.outstanding = s.outstanding ∧
      s'.committing = s.committing ∧ s'.phase = s.phase := by
  induction n generalizing s k logged with
  | zero =>
    refine ⟨s, logged, h, hlh, ?_, rfl, rfl, rfl⟩
    rw [← hcall, Function.update_eq_self]
  | succ n ih =>
    have hlen : s.lh.length = k := by rw [hlh, List.length_range']
    have htest : step cfg s (.test p) { s with call := Function.update s.call p (.tested logged) } := by
      show Log.test cfg p s = _
      unfold Log.test
      rw [hcall]
      dsimp only
      rw [if_neg (by omega), if_neg (by omega)]
    have hnew : cfg.start + cfg.size + k ∉ s.lh := by
      rw [hlh, List.mem_range'_1]
      omega
    have hwrite : step cfg { s with call := Function.update s.call p (.tested logged) }
        (.log_write p (cfg.start + cfg.size + k) fun _ => 0) { s with
          lh := s.lh ++ [cfg.start + cfg.size + k]
          buf := Function.update s.buf (cfg.start + cfg.size + k) (some fun _ => 0)
          call := Function.update (Function.update s.call p (.tested logged)) p
            (.inside (insert (cfg.start + cfg.size + k) logged)) } := by
      show Log.log_write p _ _ _ = _
      unfold Log.log_write
      dsimp only
      rw [Function.update_self]
      dsimp only
      rw [if_neg hnew]
    have hcard := Finset.card_insert_le (cfg.start + cfg.size + k) logged
    have hbudget' : Budget cfg m { s with call := Function.update s.call p (.tested logged) }
        (.log_write p (cfg.start + cfg.size + k) fun _ => 0) := by
      refine ⟨.inr (Nat.le_add_right _ _), ?_⟩
      dsimp only
      rw [Function.update_self]
      exact hcard.trans (by omega)
    have hnext := (h.next (show Budget cfg m s (.test p) from trivial) htest).next hbudget' hwrite
    have hlist : s.lh ++ [cfg.start + cfg.size + k] = List.range' (cfg.start + cfg.size) (k + 1) := by
      rw [hlh, List.range'_1_concat]
    obtain ⟨s', logged', hreach, hlh', hcall', hout', hcommitting, hphase⟩ :=
      ih hnext hlist (Function.update_self ..) hout (by omega) (by omega)
    refine ⟨s', logged', hreach, ?_, ?_, hout', hcommitting, hphase⟩
    · rw [hlh', Nat.add_right_comm, Nat.add_assoc]
    · rw [hcall', Function.update_idem, Function.update_idem]

/-- The log is open, and no call has begun. -/
theorem opened (ι : Type) [DecidableEq ι] (cfg : Config) (m : ℕ) :
    ∃ s : State ι, Reach (init cfg) (step cfg) (Budget cfg m) s ∧ s.lh = [] ∧ s.phase = .running ∧
      s.committing = false ∧ s.outstanding = 0 ∧ s.call = fun _ => .outside := by
  have hstart : Reach (init cfg) (step cfg) (Budget cfg m) (crash
      ⟨fun _ _ => 0, fun _ => none, [], 0, false, .running, fun _ => .outside, fun _ _ => 0⟩ : State ι) :=
    .start ⟨rfl, rfl, rfl⟩
  exact ⟨_, Reach.foldlM [.recover, .recover, .recover] _ _ (by simp [Budget]) hstart rfl, rfl, rfl, rfl, rfl, rfl⟩

/-- Three calls may be under way. -/
theorem begins (h : Reach (init cfg) (step cfg) (Budget cfg m) s) (hlh : s.lh = []) (hrun : s.phase = .running)
    (hfree : s.committing = false) (hout : s.outstanding ≤ 2) (hcall : s.call p = .outside) :
    Reach (init cfg) (step cfg) (Budget cfg m) { s with
      outstanding := s.outstanding + 1
      call := Function.update s.call p (.inside ∅) } := by
  refine h.next (a := .begin_op p) trivial ?_
  show Log.begin_op p s = _
  unfold Log.begin_op
  rw [hcall, hrun]
  dsimp only
  rw [hfree, if_neg (by decide), if_neg]
  rw [hlh, List.length_nil]
  unfold LOGSIZE MAXOPBLOCKS
  omega

theorem three_begun {p q r : ι} (hpq : p ≠ q) (hpr : p ≠ r) (hqr : q ≠ r) (cfg : Config) (m : ℕ) :
    ∃ s : State ι, Reach (init cfg) (step cfg) (Budget cfg m) s ∧ s.lh = [] ∧ 1 ≤ s.outstanding ∧
      s.call p = .inside ∅ ∧ s.call q = .inside ∅ ∧ s.call r = .inside ∅ := by
  obtain ⟨s, h₀, hlh, hrun, hfree, hout, hcall⟩ := opened ι cfg m
  have h₁ := begins (p := p) h₀ hlh hrun hfree (by omega) (congrFun hcall p)
  have h₂ := begins (p := q) h₁ hlh hrun hfree (by dsimp only; omega) (by
    dsimp only
    rw [Function.update_of_ne hpq.symm, hcall])
  have h₃ := begins (p := r) h₂ hlh hrun hfree (by dsimp only; omega) (by
    dsimp only
    rw [Function.update_of_ne hqr.symm, Function.update_of_ne hpr.symm, hcall])
  refine ⟨_, h₃, hlh, Nat.le_add_left _ _, ?_, ?_, Function.update_self ..⟩
  · dsimp only
    rw [Function.update_of_ne hpr, Function.update_of_ne hpq, Function.update_self]
  · dsimp only
    rw [Function.update_of_ne hqr, Function.update_self]

/-- **Three calls that each write ten blocks** do not fit. -/
theorem too_big_reached {p q r : ι} (hpq : p ≠ q) (hpr : p ≠ r) (hqr : q ≠ r) (hsize : cfg.size = LOGSIZE)
    (hm : MAXOPBLOCKS ≤ m) : ∃ s : State ι, Reach (init cfg) (step cfg) (Budget cfg m) s ∧
      next cfg s (.test r) = .error .too_big := by
  have hzero : (∅ : Finset ℕ).card + MAXOPBLOCKS ≤ m := by
    rw [Finset.card_empty, Nat.zero_add]
    exact hm
  obtain ⟨s, h, hlh, hout, hp, hq, hr⟩ := three_begun hpq hpr hqr cfg m
  obtain ⟨s₁, _, h₁, hlh₁, hcall₁, hout₁, -, -⟩ := fill (k := 0) h hsize hlh hp hout (by decide) hzero
  rw [← hout₁] at hout
  obtain ⟨s₂, _, h₂, hlh₂, hcall₂, hout₂, -, -⟩ := fill h₁ hsize hlh₁ (p := q)
    (by rw [hcall₁, Function.update_of_ne hpq.symm, hq]) hout (by decide) hzero
  rw [← hout₂] at hout
  have hzero' : (∅ : Finset ℕ).card + 9 ≤ m := le_trans (by decide) hzero
  obtain ⟨s₃, logged, h₃, hlh₃, hcall₃, hout₃, -, -⟩ := fill h₂ hsize hlh₂ (p := r)
    (by rw [hcall₂, Function.update_of_ne hqr.symm, hcall₁, Function.update_of_ne hpr.symm, hr]) hout
    (by decide) hzero'
  refine ⟨s₃, h₃, ?_⟩
  show Log.test cfg r s₃ = _
  unfold Log.test
  rw [hcall₃, Function.update_self]
  dsimp only
  rw [if_pos]
  right
  rw [hlh₃, hsize, List.length_range']
  decide

variable [Fintype ι]

/-- **The panics of `log.c` are never reached if and only if no call writes `MAXOPBLOCKS` different blocks**: over
all runs of calls, commits, crashes and recoveries, with the log that `mkfs` makes and three processes or more. -/
theorem log_write_never_panics_iff (hsize : cfg.size = LOGSIZE) (hthree : 2 < Fintype.card ι) :
    (∀ s : State ι, Reach (init cfg) (step cfg) (Budget cfg m) s → ∀ e why, next cfg s e = .error why →
      why = .sleeps ∨ why = .elsewhere) ↔ m < MAXOPBLOCKS := by
  constructor
  · intro h
    by_contra hm
    obtain ⟨p, q, r, hpq, hpr, hqr⟩ := Fintype.two_lt_card_iff.mp hthree
    obtain ⟨s, hs, hbig⟩ := too_big_reached hpq hpr hqr hsize (not_lt.mp hm)
    rcases h s hs _ _ hbig with hc | hc
    · cases hc
    · cases hc
  · intro hm s hs e why hstop
    obtain ⟨hinv, hreserved⟩ := reserved_of_reach hsize hm hs
    exact Reserved.no_panic hinv hreserved hsize hstop

/-- The log that `mkfs` makes, and three processes. -/
theorem log_write_never_panics_nine :
    (∀ s : State (Fin 3), Reach (init ⟨2, LOGSIZE⟩) (step ⟨2, LOGSIZE⟩) (Budget ⟨2, LOGSIZE⟩ 9) s → ∀ e why,
      next ⟨2, LOGSIZE⟩ s e = .error why → why = .sleeps ∨ why = .elsewhere) ↔ 9 < MAXOPBLOCKS :=
  log_write_never_panics_iff rfl (by decide)

end Full

end OperatingSystems.Log
